/-
Every step keeps a machine in place. There is one lemma for each thing that a
machine can be about to do, and the last ones put them together, for one step
and for a whole run.
-/
import Lox.Proofs.Machine.Origin
import Lox.Proofs.Machine.Upkeep

namespace Lox

/-- Sites that were visited in accepted programs, with all that is inside them. -/
structure Layout.Closed (visits : Site → Visit → Prop) : Prop where
  fine : ∀ {site v}, visits site v → site.Fine v
  part : ∀ {site v part w}, visits site v → (part, w) ∈ site.parts v → visits part w

namespace Layout.Closed

variable {visits : Site → Visit → Prop} (hW : Closed visits)

include hW

/-- A site with one part. -/
theorem only {site part : Site} {v w : Visit} (hv : visits site v)
    (hp : site.parts v = [(part, w)]) : visits part w :=
  hW.part hv (by rw [hp]; exact List.mem_singleton.2 rfl)

theorem first {site part : Site} {v w : Visit} {rest : List (Site × Visit)} (hv : visits site v)
    (hp : site.parts v = (part, w) :: rest) : visits part w :=
  hW.part hv (by rw [hp]; exact List.mem_cons_self ..)

theorem second {site part : Site} {v w : Visit} {first : Site × Visit}
    {rest : List (Site × Visit)} (hv : visits site v)
    (hp : site.parts v = first :: (part, w) :: rest) : visits part w :=
  hW.part hv (by rw [hp]; exact List.mem_cons_of_mem _ (List.mem_cons_self ..))

end Layout.Closed

/-- The methods of a class are visited at the place of the first one. -/
theorem Layout.Closed.method {visits : Site → Visit → Prop} (hW : Layout.Closed visits)
    {decls : List FunctionDecl} {v : Visit} (hv : visits (.methods decls) v) {decl : FunctionDecl}
    (hd : decl ∈ decls) :
    ∃ w, visits (.function decl (if decl.isInit then .initializer else .method)) w ∧
      w.scopes = v.scopes ∧ w.closing = v.closing := by
  induction decls generalizing v with
  | nil => cases hd
  | cons first rest ih =>
    have hfirst := hW.first hv rfl
    rcases List.mem_cons.1 hd with rfl | hd
    · exact ⟨v, hfirst, rfl, rfl⟩
    · obtain ⟨w, hw, hscopes, hclosing⟩ := ih (hW.second hv rfl) hd
      exact ⟨w, hw, hscopes.trans (first.resolve_scopes _ _ (hW.fine hfirst).proper), hclosing⟩

/-! ## Places -/

/-- An expression is at one place from beginning to end. -/
theorem Visit.spot_after_expr (v : Visit) (e : Expr) : (v.after (.expr e)).spot = v.spot :=
  congrArg (Spot.mk · v.closing) (e.resolve_scopes _)

/-- Behind a statement the name that it declares is defined. -/
theorem Visit.spot_after_stmt {v : Visit} {s : Stmt} (hs : s.Proper) :
    (v.after (.stmt s)).spot = ⟨withDeclared s.declared? v.scopes, v.closing⟩ :=
  congrArg (Spot.mk · v.closing) (s.resolve_scopes _ hs)

theorem Visit.spot_of_undeclared {v : Visit} {s : Stmt} (hs : s.Proper) (hd : s.declared? = none) :
    (v.after (.stmt s)).spot = v.spot := by
  rw [v.spot_after_stmt hs, hd]; rfl

theorem Visit.spot_of_declared {v : Visit} {s : Stmt} {name : Token} (hs : s.Proper)
    (hd : s.declared? = some name) : (v.after (.stmt s)).spot = v.spot.defined name := by
  rw [v.spot_after_stmt hs, hd]; rfl

/-- A name that a statement declares is in the scope when it is closed. -/
theorem Site.Fine.grows_declared {s : Stmt} {v : Visit} {name : Token} (h : (Site.stmt s).Fine v)
    (hd : s.declared? = some name) : Grows (withDefined name v.scopes) v.closing := by
  have := h.covered
  rwa [Site.resolve, s.resolve_scopes _ h.proper, hd] at this

/-- The scope of a function at the beginning of its body has the names of the parameters, and it is
closed with no fewer. -/
theorem Site.Fine.body {params : List Token} {body : List Stmt} {context : FunctionContext}
    {v w : Visit} (h : (Site.stmts body).Fine w)
    (hw : w = v.opening (v.resolution.insideFunction context params) (.stmts body)) :
    ∃ scope closing, w.spot = ⟨scope :: v.scopes, closing :: v.closing⟩ ∧
      (∀ n, scope.get? n = some .defined ↔ n ∈ params.map Token.lexeme) ∧
      ∀ n ∈ params.map Token.lexeme, closing.contains n = true := by
  subst hw
  obtain ⟨inner, hinner⟩ := foldl_withDefined_cons params .empty v.scopes
  have hscopes : (v.resolution.insideFunction context params).scopes = inner :: v.scopes :=
    (insideFunction_scopes _ context params).trans hinner
  have hd : ∀ n, inner.get? n = some .defined ↔ n ∈ params.map Token.lexeme := fun n => by
    rw [get?_params params .empty inner v.scopes hinner, Bindings.get?_empty]
    split <;> simp [*]
  have hg := h.before_stmts
  simp only [Visit.scopes, Visit.opening, hscopes] at hg
  cases hg with
  | cons hg _ =>
    refine ⟨inner, _, ?_, hd, fun n hn => hg n (Bindings.contains_of_get? ((hd n).2 hn))⟩
    rw [Visit.spot, Visit.scopes, Visit.opening, hscopes]

namespace Machine

variable {G : Layout} {s : State} {p : Spot}

theorem InPlace.intro {m : Machine} (hs : G.OkStore m.state.store) (hf : m.Fits G) :
    m.InPlace G.visits := ⟨G.labels, hs, hf⟩

theorem InPlace.value {x : Value} {k : Stack .value} (hs : G.OkStore s.store)
    (hx : G.OkValue s.store x) (ha : G.Active s.store s.env p) (hk : k.Fits G s.store s.env p) :
    InPlace G.visits ⟨s, .value x k⟩ :=
  intro hs ⟨p, hx, ha, hk⟩

theorem InPlace.raise {e : RuntimeError} {a : Yield} {k : Stack a} (hs : G.OkStore s.store)
    (hk : k.Fits G s.store s.env p) : InPlace G.visits ⟨s, .raise e k⟩ :=
  intro hs ⟨p, hk⟩

theorem InPlace.normal {k : Stack .flow} (hs : G.OkStore s.store) (ha : G.Active s.store s.env p)
    (hk : k.Fits G s.store s.env p) : InPlace G.visits ⟨s, .flow .normal k⟩ :=
  intro hs ⟨p, (fun _ h => by cases h), ha, hk⟩

theorem InPlace.eval {e : Expr} {k : Stack .value} (hs : G.OkStore s.store)
    (he : G.At (.expr e) p) (ha : G.Active s.store s.env p) (hk : k.Fits G s.store s.env p) :
    InPlace G.visits ⟨s, .eval e k⟩ := by
  obtain ⟨v, hv, rfl⟩ := he
  exact intro hs ⟨v, hv, ha, hk⟩

/-- A statement that declares nothing leaves what waits where it was. -/
theorem InPlace.branch {stmt : Stmt} {k : Stack .flow} (hW : Layout.Closed G.visits)
    (hs : G.OkStore s.store) (hstmt : G.At (.stmt stmt) p) (hd : stmt.declared? = none)
    (ha : G.Active s.store s.env p) (hk : k.Fits G s.store s.env p) :
    InPlace G.visits ⟨s, .exec stmt k⟩ := by
  obtain ⟨v, hv, rfl⟩ := hstmt
  refine intro hs ⟨v, hv, ha, ?_⟩
  rwa [v.spot_of_undeclared (hW.fine hv).proper hd]

/-- The first of some statements starts, and what waits takes care of the others. -/
theorem InPlace.next {stmt : Stmt} {rest : List Stmt} {k : Stack .flow}
    (hW : Layout.Closed G.visits) (hs : G.OkStore s.store) (hstmts : G.At (.stmts (stmt :: rest)) p)
    (ha : G.Active s.store s.env p)
    (hk : ∀ q, G.At (.stmts rest) q → q.closing = p.closing →
      q.scopes = withDeclared stmt.declared? p.scopes → k.Fits G s.store s.env q) :
    InPlace G.visits ⟨s, .exec stmt k⟩ := by
  obtain ⟨v, hv, rfl⟩ := hstmts
  have hstmt : G.visits (.stmt stmt) v := hW.first hv rfl
  refine intro hs ⟨v, hstmt, ha, hk _ ⟨_, hW.second hv rfl, rfl⟩ rfl ?_⟩
  exact stmt.resolve_scopes _ (hW.fine hstmt).proper

/-- A result that may be an error. -/
theorem InPlace.ofResult {r : Except RuntimeError Value} {k : Stack .value}
    (hs : G.OkStore s.store) (hr : ∀ x, r = .ok x → G.OkValue s.store x)
    (ha : G.Active s.store s.env p) (hk : k.Fits G s.store s.env p) :
    InPlace G.visits ⟨s, .ofResult r k⟩ := by
  cases r with
  | ok x => exact .value hs (hr x rfl) ha hk
  | error e => exact .raise hs hk

/-! ## Values that hold no function -/

theorem okValue_of_plain {x : Value} (h : x.Plain) : G.OkValue s.store x := by
  cases x with
  | nil | bool | number | string => trivial
  | callable | object => exact h.elim

/-! ## Calls -/

/-- A function starts in a new frame that has its parameters. -/
theorem InPlace.enterBody (hW : Layout.Closed G.visits) (hs : G.OkStore s.store)
    (ha : G.Active s.store s.env p) {f : Closure} (hf : G.OkClosure s.store f) {args : List Value}
    (hargs : ∀ x ∈ args, G.OkValue s.store x) (hn : args.length = f.decl.arity)
    {k : Stack .value} (hk : k.Fits G s.store s.env p) :
    (enterBody s f args k).InPlace G.visits := by
  obtain ⟨stamp, ⟨name, params, body⟩, env, isInit⟩ := f
  obtain ⟨context, v, hv, hfollows⟩ := hf
  have hbody := hW.only hv rfl
  obtain ⟨scope, closing, hspot, hscope, hclosing⟩ := (hW.fine hbody).body rfl
  have hkeys : ((params.map Token.lexeme).zip args).map Prod.fst = params.map Token.lexeme := by
    refine List.map_fst_zip ?_
    rw [List.length_map, hn]
    exact Nat.le_refl _
  have hnames (n : String) : (Bindings.ofList ((params.map Token.lexeme).zip args)).contains n = true ↔
      n ∈ params.map Token.lexeme := by rw [Bindings.contains_ofList, hkeys]
  have hvalues (n : String) (x : Value)
      (hx : (Bindings.ofList ((params.map Token.lexeme).zip args)).get? n = some x) :
      G.OkValue s.store x := hargs x (Bindings.get?_ofList_zip hx).2
  have hlater := Layout.later_addFrame G s.store closing
    (Bindings.ofList ((params.map Token.lexeme).zip args))
  have hactive := Layout.Active.addFrame hs closing hfollows
    (fun n => (hscope n).trans (hnames n).symm)
  have hlt : s.env.frame < s.store.frames.size := ha.lt_size hs
  refine .normal (G := G.push closing)
    (hs.addFrame closing (fun n h => hclosing n ((hnames n).1 h)) hvalues) hactive ?_
  exact .block ⟨_, hbody, hspot⟩ (hlater.active ha hlt) hlt
    (.body (hlater.stack hk (Nat.le_of_lt hlt)))

/-- Binding a method makes the frame of its class, which holds the receiver. -/
theorem okClosure_bind (hs : G.OkStore s.store) {f : Closure} (hf : G.OkMethod s.store f)
    {o : Instance} (ho : G.OkValue s.store (.object o)) :
    (G.push classScope).OkStore (s.store.bind f o).2 ∧
      (G.push classScope).OkClosure (s.store.bind f o).2 (s.store.bind f o).1 ∧
      Later s.store.frames.size G s.store (G.push classScope) (s.store.bind f o).2 := by
  obtain ⟨context, v, q, hv, hspot, hfollows⟩ := hf
  have hnames (n : String) : classScope.get? n = some .defined ↔
      ((Bindings.empty.set receiverName (.object o) : Bindings Value)).contains n = true := by
    rw [classScope, Bindings.get?_set, Bindings.contains_set]
    by_cases h : n = receiverName <;> simp [h, Bindings.contains]
  have hvalues : ∀ n x, (Bindings.empty.set receiverName (.object o)).get? n = some x →
      G.OkValue s.store x := by
    intro n x hx
    rw [Bindings.get?_set] at hx
    split at hx <;> cases hx
    exact ho
  have hstore := @Layout.OkStore.addFrame _ _ hs classScope
    (Bindings.empty.set receiverName (.object o))
    (fun n h => Bindings.contains_of_get? ((hnames n).2 h)) hvalues
  have hstamp := Layout.later_of_names s.store.frames.size (G.push classScope)
    (s.store.addFrame (Bindings.empty.set receiverName (.object o))).2 (s.store.bind f o).2
    (fun _ _ => rfl)
  refine ⟨hstore.stamp _, ⟨context, v, hv, ?_⟩,
    (Layout.later_addFrame G s.store classScope _).trans hstamp⟩
  rw [hspot]
  exact hstamp.follows (Layout.Active.addFrame hs classScope hfollows hnames).follows

theorem InPlace.property (hs : G.OkStore s.store) (ha : G.Active s.store s.env p) {o : Instance}
    (ho : G.OkValue s.store (.object o)) {name : Token} {k : Stack .value}
    (hk : k.Fits G s.store s.env p) : (property s o name k).InPlace G.visits := by
  unfold Machine.property
  split
  next x hx => exact .value hs (hs.fields _ _ _ hx) ha hk
  next =>
    split
    next f hf =>
      obtain ⟨hstore, hclosure, hlater⟩ := okClosure_bind hs (ho _ f hf) ho
      have hlt : s.env.frame < s.store.frames.size := ha.lt_size hs
      exact .value (G := G.push classScope) hstore hclosure (hlater.active ha hlt)
        (hlater.stack hk (Nat.le_of_lt hlt))
    next => exact .raise hs hk

theorem InPlace.instantiate (hW : Layout.Closed G.visits) (hs : G.OkStore s.store)
    (ha : G.Active s.store s.env p) {c : Class} (hc : G.OkClass s.store c) {args : List Value}
    (hargs : ∀ x ∈ args, G.OkValue s.store x) (hn : args.length = c.arity) {k : Stack .value}
    (hk : k.Fits G s.store s.env p) : (instantiate s c args k).InPlace G.visits := by
  have hobject := Layout.later_of_names s.store.frames.size G s.store s.store.addObject.2
    (fun _ _ => rfl)
  have hlt : s.env.frame < s.store.frames.size := ha.lt_size hs
  have ha' := hobject.active ha hlt
  have hk' := hobject.stack hk (Nat.le_of_lt hlt)
  have ho : G.OkValue s.store.addObject.2 (.object ⟨s.store.objects.size, c⟩) :=
    hobject.value (x := .object ⟨s.store.objects.size, c⟩) hc
  unfold Machine.instantiate
  simp only [State.withStore_eq]
  split
  next => exact .value (G := G) hs.addObject ho ha' hk'
  next f hf =>
    obtain ⟨hstore, hclosure, hlater⟩ := okClosure_bind (s := { s with store := s.store.addObject.2 })
      hs.addObject (ho _ f hf) ho
    refine .enterBody (G := G.push classScope) hW hstore (hlater.active ha' hlt) hclosure
      (fun x hx => hlater.value (hobject.value (hargs x hx))) ?_
      (.construct (hlater.value ho) (hlater.stack hk' (Nat.le_of_lt hlt)))
    rw [hn, Class.arity, hf]
    rfl

theorem InPlace.callNative (hs : G.OkStore s.store) (ha : G.Active s.store s.env p) {f : Native}
    {args : List Value} {k : Stack .value} (hk : k.Fits G s.store s.env p) :
    (callNative s f args k).InPlace G.visits := by
  obtain ⟨time, x, hx, hcall⟩ := callNative_cases s f args k
  rw [hcall]
  exact .value (G := G) (s := { s with time }) hs (okValue_of_plain hx) ha hk

theorem InPlace.call (hW : Layout.Closed G.visits) (hs : G.OkStore s.store)
    (ha : G.Active s.store s.env p) {callee : Value} (hc : G.OkValue s.store callee) {paren : Token}
    {args : List Value} (hargs : ∀ x ∈ args, G.OkValue s.store x) {k : Stack .value}
    (hk : k.Fits G s.store s.env p) : (call s callee paren args k).InPlace G.visits := by
  obtain ⟨e, hcall⟩ | ⟨f, rfl, hn, -, hcall⟩ := call_cases s callee paren args k
  · rw [hcall]
    exact .raise hs hk
  · rw [hcall]
    cases f with
    | native f => exact .callNative hs ha hk
    | closure f => exact .enterBody hW hs ha hc hargs hn hk
    | «class» c => exact .instantiate hW hs ha hc hargs hn hk

theorem InPlace.nextArgument (hW : Layout.Closed G.visits) (hs : G.OkStore s.store)
    (ha : G.Active s.store s.env p) {callee : Value} (hc : G.OkValue s.store callee) {paren : Token}
    {done : List Value} (hdone : ∀ x ∈ done, G.OkValue s.store x) {rest : List Expr}
    (hrest : G.At (.exprs rest) p) {k : Stack .value} (hk : k.Fits G s.store s.env p) :
    (nextArgument s callee paren done rest k).InPlace G.visits := by
  cases rest with
  | nil => exact .call hW hs ha hc (fun x hx => hdone x (List.mem_reverse.1 hx)) hk
  | cons e rest =>
    obtain ⟨v, hv, rfl⟩ := hrest
    have hrest : G.At (.exprs rest) v.spot := ⟨_, hW.second hv rfl, v.spot_after_expr e⟩
    exact .eval hs ⟨v, hW.first hv rfl, rfl⟩ ha (.argument hc hdone hrest hk)

/-! ## Expressions and statements -/

theorem InPlace.start (hW : Layout.Closed G.visits) (hs : G.OkStore s.store) {e : Expr} {v : Visit}
    (hv : G.visits (.expr e) v) (ha : G.Active s.store s.env v.spot) {k : Stack .value}
    (hk : k.Fits G s.store s.env v.spot) : (Machine.eval s k e).InPlace G.visits := by
  cases e with
  | literal l => exact .value hs (by cases l <;> trivial) ha hk
  | grouping e => exact .eval hs ⟨v, hW.only hv rfl, rfl⟩ ha hk
  | unary op e => exact .eval hs ⟨v, hW.only hv rfl, rfl⟩ ha (.unary hk)
  | binary left op right =>
    have hright : G.At (.expr right) v.spot := ⟨_, hW.second hv rfl, v.spot_after_expr left⟩
    exact .eval hs ⟨v, hW.first hv rfl, rfl⟩ ha (.binaryLeft hright hk)
  | logical left op right =>
    have hright : G.At (.expr right) v.spot := ⟨_, hW.second hv rfl, v.spot_after_expr left⟩
    exact .eval hs ⟨v, hW.first hv rfl, rfl⟩ ha (.logical hright hk)
  | «variable» id name | this id name =>
    refine .ofResult hs (fun x hx => ?_) ha hk
    obtain ⟨frame, hframe⟩ := State.frame_of_lookUp hx
    exact hs.vars _ _ _ hframe
  | assign id name e => exact .eval hs ⟨v, hW.only hv rfl, rfl⟩ ha (.assign ⟨v, hv, rfl⟩ hk)
  | call callee paren args =>
    have hargs : G.At (.exprs args) v.spot := ⟨_, hW.second hv rfl, v.spot_after_expr callee⟩
    exact .eval hs ⟨v, hW.first hv rfl, rfl⟩ ha (.callee hargs hk)
  | get object name => exact .eval hs ⟨v, hW.only hv rfl, rfl⟩ ha (.property hk)
  | set object name e =>
    -- The resolver visits the value first, the machine the object.
    have hobject : G.At (.expr object) v.spot := ⟨_, hW.second hv rfl, v.spot_after_expr e⟩
    exact .eval hs hobject ha (.fieldObject ⟨v, hW.first hv rfl, rfl⟩ hk)

/-- A declaration has been carried out. -/
theorem InPlace.define (hs : G.OkStore s.store) (ha : G.Active s.store s.env p) {name : Token}
    (hg : Grows (withDefined name p.scopes) p.closing) {x : Value}
    (hx : G.OkValue (s.store.define s.env name.lexeme x) x) {k : Stack .flow}
    (hk : k.Fits G s.store s.env (p.defined name)) :
    InPlace G.visits ⟨s.define name x, .flow .normal k⟩ :=
  have hlater := Layout.later_define s.env name.lexeme x
  .normal (G := G) (hs.define ha hg hx) (ha.define (ha.lt_size hs))
    (hlater.stack hk (Nat.le_refl _))

/-- The number that the next function gets does not matter. -/
theorem later_stamp (b : FrameId) (G : Layout) (s : Store) (stamp : Nat) :
    Later b G s G { s with nextStamp := stamp } :=
  Layout.later_of_names b G _ _ fun _ _ => rfl

theorem InPlace.carryOut (hW : Layout.Closed G.visits) (hs : G.OkStore s.store) {stmt : Stmt}
    {v : Visit} (hv : G.visits (.stmt stmt) v) (ha : G.Active s.store s.env v.spot)
    {k : Stack .flow} (hk : k.Fits G s.store s.env (v.after (.stmt stmt)).spot) :
    (exec s k stmt).InPlace G.visits := by
  have hfine := hW.fine hv
  have hproper : stmt.Proper := hfine.proper
  have hlt : s.env.frame < s.store.frames.size := ha.lt_size hs
  cases stmt with
  | expression e =>
    rw [v.spot_of_undeclared hproper rfl] at hk
    exact .eval hs ⟨v, hW.only hv rfl, rfl⟩ ha (.discard hk)
  | print e =>
    rw [v.spot_of_undeclared hproper rfl] at hk
    exact .eval hs ⟨v, hW.only hv rfl, rfl⟩ ha (.print hk)
  | var name init =>
    rw [v.spot_of_declared hproper rfl] at hk
    have hg := hfine.grows_declared rfl
    cases init with
    | none => exact .define (x := .nil) hs ha hg trivial hk
    | some e =>
      have he := hW.only hv rfl
      have hclean : (v.resolution.declare name).Clean := (e.resolve_reaches _).clean (hW.fine he).clean
      obtain ⟨hscopes, hnew⟩ := hclean.declare_scopes
      have hdefined : withDefined name (withPending name v.scopes) = withDefined name v.scopes := by
        rw [Visit.scopes, ← hscopes, Resolution.withDefined_declare]
      refine .eval hs ⟨_, he, congrArg (Spot.mk · v.closing) hscopes⟩ (ha.pending hnew)
        (.define (p := ⟨withPending name v.scopes, v.closing⟩) ?_ ?_)
      · exact hdefined ▸ hg
      · rwa [Spot.defined, hdefined]
  | block body =>
    rw [v.spot_of_undeclared hproper rfl] at hk
    have hbody := hW.only hv rfl
    have hlater := Layout.later_addFrame G s.store
      ((Stmt.resolveAll body (v.resolution.push .empty)).scopes.headD .empty) .empty
    have hnone (n : String) : (.empty : Scope).get? n = some .defined ↔
        (.empty : Bindings Value).contains n = true := by simp [Bindings.contains]
    refine .normal (G := G.push _) (hs.addFrame _ (fun n h => ?_) (fun n x h => ?_))
      (.addFrame hs _ ha.follows hnone)
      (.block ⟨_, hbody, rfl⟩ (hlater.active ha hlt) hlt (hlater.stack hk (Nat.le_of_lt hlt)))
    · cases (hnone n).2 h
    · cases h
  | cond test thenPart elsePart =>
    rw [v.spot_of_undeclared hproper rfl] at hk
    have htest := v.spot_after_expr test
    cases elsePart with
    | none =>
      rw [Stmt.Proper] at hproper
      exact .eval hs ⟨v, hW.first hv rfl, rfl⟩ ha
        (.branch ⟨_, hW.second hv rfl, htest⟩ hproper.1 (fun e he => by cases he) hk)
    | some elsePart =>
      rw [Stmt.Proper] at hproper
      have helse : G.visits (.stmt elsePart) ((v.after (.expr test)).after (.stmt thenPart)) :=
        hW.part hv (by simp [Site.parts])
      refine .eval hs ⟨v, hW.first hv rfl, rfl⟩ ha
        (.branch ⟨_, hW.second hv rfl, htest⟩ hproper.1.1 (fun e he => ?_) hk)
      cases he
      refine ⟨⟨_, helse, ?_⟩, hproper.2.1⟩
      rw [Visit.spot_of_undeclared hproper.1.2 hproper.1.1, htest]
  | «while» test body =>
    rw [v.spot_of_undeclared hproper rfl] at hk
    rw [Stmt.Proper] at hproper
    have htest : G.At (.expr test) v.spot := ⟨v, hW.first hv rfl, rfl⟩
    exact .eval hs htest ha
      (.loopTest htest ⟨_, hW.second hv rfl, v.spot_after_expr test⟩ hproper.1 hk)
  | function decl =>
    rw [v.spot_of_declared hproper rfl] at hk
    have hstamp := later_stamp s.store.frames.size G s.store (s.store.nextStamp + 1)
    have ha' := hstamp.active ha hlt
    refine .define (s := { s with store := { s.store with nextStamp := s.store.nextStamp + 1 } })
      (x := .callable (.closure ⟨s.store.nextStamp, decl, s.env, false⟩)) (hs.stamp _) ha'
      (hfine.grows_declared rfl) ⟨_, _, hW.only hv rfl, ?_⟩ (hstamp.stack hk (Nat.le_of_lt hlt))
    have hscopes : ((v.resolution.declare decl.name).define decl.name).scopes =
        withDefined decl.name v.scopes := by
      rw [Resolution.define_scopes, Resolution.withDefined_declare, Visit.scopes]
    rw [Visit.spot, Visit.scopes, hscopes]
    exact (ha'.define hlt).follows
  | ret keyword value =>
    rw [v.spot_of_undeclared hproper rfl] at hk
    cases value with
    | none => exact .intro hs ⟨_, fun x hx => by cases hx; trivial, ha, hk⟩
    | some e =>
      refine .eval hs ⟨_, hW.only hv rfl, ?_⟩ ha (.ret hk)
      exact congrArg (Spot.mk · v.closing) (Resolution.checkReturn_scopes ..)
  | «class» name decls =>
    rw [v.spot_of_declared hproper rfl] at hk
    have hdecls := hW.only hv rfl
    have hspot : (v.opening (v.resolution.insideClass name) (.methods decls)).spot =
        ⟨classScope :: (v.spot.defined name).scopes, classScope :: (v.spot.defined name).closing⟩ := by
      have hinside := insideClass_scopes v.resolution name
      have hclosed : ((Site.methods decls).resolve (v.resolution.insideClass name)).scopes =
          classScope :: withDefined name v.scopes :=
        (FunctionDecl.resolveMethods_scopes decls _ (hW.fine hdecls).proper).trans hinside
      rw [Visit.spot, Visit.scopes, Visit.opening, hinside, hclosed]
      rfl
    obtain ⟨stamp, hstore⟩ := Store.methods_store s.env decls s.store .empty
    have hstamp := later_stamp s.store.frames.size G s.store (stamp + 1)
    have ha' := hstamp.active ha hlt
    simp only [exec, State.withStore_eq, hstore, Store.freshStamp]
    refine .define (s := { s with store := { s.store with nextStamp := stamp + 1 } })
      (x := .callable (.class ⟨stamp, name.lexeme, (s.store.methods s.env decls .empty).1⟩))
      (hs.stamp _) ha' (hfine.grows_declared rfl) (fun n f hf => ?_)
      (hstamp.stack hk (Nat.le_of_lt hlt))
    rcases Store.method_of_methods hf with ⟨number, decl, hd, rfl⟩ | hf
    · obtain ⟨w, hw, hscopes, hclosing⟩ := hW.method hdecls hd
      exact ⟨_, w, _, hw, (congrArg₂ Spot.mk hscopes hclosing).trans hspot, (ha'.define hlt).follows⟩
    · cases hf

/-! ## What waits is served -/

theorem InPlace.serveValue (hW : Layout.Closed G.visits) (hs : G.OkStore s.store) {x : Value}
    (hx : G.OkValue s.store x) (ha : G.Active s.store s.env p) {b : Yield} {w : Waiting .value b}
    {k : Stack b} (hk : (Stack.push w k).Fits G s.store s.env p) :
    (serveValue s x w k).InPlace G.visits := by
  cases hk with
  | unary hk => exact .ofResult hs (fun y hy => okValue_of_plain (plain_unaryOperation hy)) ha hk
  | binaryLeft hright hk => exact .eval hs hright ha (.binaryRight hk)
  | binaryRight hk =>
    exact .ofResult hs (fun y hy => okValue_of_plain (plain_binaryOperation hy)) ha hk
  | @logical op right _ _ _ hright hk =>
    rw [Machine.serveValue]
    split
    · exact .value hs hx ha hk
    · exact .eval hs hright ha hk
  | @assign id name e _ _ _ he hk =>
    rw [Machine.serveValue, Machine.assign]
    split
    next f hf =>
      have hc := State.contains_of_holder? hf
      have hlater := Layout.later_of_names (s.env.frame + 1) G _ _ (Layout.contains_setVar hc x)
      exact .value (G := G) (hs.setVar hc hx) (hlater.value hx) (hlater.active ha (Nat.lt_succ_self _))
        (hlater.stack hk (Nat.le_succ _))
    next => exact .raise hs hk
  | callee hargs hk => exact .nextArgument hW hs ha hx (fun _ h => by cases h) hargs hk
  | argument hc hdone hrest hk =>
    exact .nextArgument hW hs ha hc (List.forall_mem_cons.2 ⟨hx, hdone⟩) hrest hk
  | property hk =>
    cases x with
    | object o => exact .property hs ha hx hk
    | nil | bool | number | string | callable => exact .raise hs hk
  | fieldObject he hk =>
    cases x with
    | object o => exact .eval hs he ha (.fieldValue hk)
    | nil | bool | number | string | callable => exact .raise hs hk
  | @fieldValue o name _ _ _ hk =>
    have hlater := Layout.later_of_names (s.env.frame + 1) G s.store
      (s.store.setField o.id name.lexeme x) (fun _ _ => rfl)
    exact .value (G := G) (hs.setField _ _ hx) (hlater.value hx)
      (hlater.active ha (Nat.lt_succ_self _)) (hlater.stack hk (Nat.le_succ _))
  | construct ho hk => exact .value hs ho ha hk
  | discard hk | print hk => exact .normal (G := G) hs ha hk
  | @define name _ _ _ hg hk =>
    exact .define hs ha hg ((Layout.later_define s.env name.lexeme x).value hx) hk
  | @branch _ _ _ _ elsePart ht hd he hk =>
    cases elsePart with
    | none =>
      rw [Machine.serveValue]
      split
      · exact .branch hW hs ht hd ha hk
      · exact .normal hs ha hk
    | some elsePart =>
      rw [Machine.serveValue]
      split
      · exact .branch hW hs ht hd ha hk
      · exact .branch hW hs (he _ rfl).1 (he _ rfl).2 ha hk
  | loopTest ht hb hd hk =>
    rw [Machine.serveValue]
    split
    · exact .branch hW hs hb hd ha (.loopBody ht hb hd hk)
    · exact .normal hs ha hk
  | ret hk => exact .intro hs ⟨p, (fun y hy => by cases hy; exact hx), ha, hk⟩

theorem InPlace.serveFlow (hW : Layout.Closed G.visits) (hs : G.OkStore s.store) {f : Flow}
    (hf : ∀ x, f = .returned x → G.OkValue s.store x) (ha : G.Active s.store s.env p) {b : Yield}
    {w : Waiting .flow b} {k : Stack b} (hk : (Stack.push w k).Fits G s.store s.env p) :
    (serveFlow s f w k).InPlace G.visits := by
  generalize henv : s.env = env at ha hk
  cases hk with
  | loopBody ht hb hd hk =>
    cases f with
    | normal => exact .eval hs ht (henv ▸ ha) (henv ▸ .loopTest ht hb hd hk)
    | returned x => exact .intro hs ⟨p, hf, henv ▸ ha, henv ▸ hk⟩
  | @block rest around _ _ _ q hrest haround hlt hk =>
    cases f with
    | normal =>
      cases rest with
      | nil => exact .normal (G := G) hs haround hk
      | cons next rest =>
        exact .next hW hs hrest (henv ▸ ha) fun q hq _ _ => henv ▸ .block hq haround hlt hk
    | returned x => exact .intro (G := G) hs ⟨q, hf, haround, hk⟩
  | @body f _ _ _ hk =>
    subst henv
    exact .ofResult (G := G) hs
      (fun y hy => hs.all.result (fun _ => okValue_of_plain) hf hy) ha hk
  | @program rest _ hrest hk =>
    cases rest with
    | nil => exact .normal hs (henv ▸ ha) (henv ▸ hk)
    | cons next rest =>
      refine .next hW hs hrest (henv ▸ ha) fun q hq hc hscopes => ?_
      have htop : q = .top := by
        obtain ⟨scopes, closing⟩ := q
        obtain rfl : closing = [] := hc
        obtain rfl : scopes = [] := hscopes.trans (withDeclared_nil _)
        rfl
      rw [htop, henv]
      exact .program (htop ▸ hq) hk

/-- What an error leaves on the stack goes on where the error left it. -/
theorem InPlace.unwind (hs : G.OkStore s.store) {e : RuntimeError} {a b : Yield} {w : Waiting a b}
    {k : Stack b} (hk : (Stack.push w k).Fits G s.store s.env p) :
    InPlace G.visits ⟨Machine.unwind s w, .raise e k⟩ := by
  generalize henv : s.env = env at hk
  cases hk with
  | block _ _ _ hk => exact .raise (G := G) hs hk
  | program _ hk => exact .raise (G := G) hs (henv ▸ hk)
  | _ =>
    subst henv
    exact .raise (G := G) hs (by assumption)

/-! ## Steps and runs -/

/-- A step keeps the machine in place. -/
theorem InPlace.step {visits : Site → Visit → Prop} (hW : Layout.Closed visits) {m : Machine}
    (h : m.InPlace visits) : m.step.InPlace visits := by
  obtain ⟨labels, hs, hf⟩ := h
  obtain ⟨s, c⟩ := m
  cases c with
  | eval e k =>
    obtain ⟨v, hv, ha, hk⟩ := hf
    exact .start (G := ⟨visits, labels⟩) hW hs hv ha hk
  | exec stmt k =>
    obtain ⟨v, hv, ha, hk⟩ := hf
    exact .carryOut (G := ⟨visits, labels⟩) hW hs hv ha hk
  | value x k =>
    obtain ⟨p, hx, ha, hk⟩ := hf
    cases k with
    | bottom => exact .value (G := ⟨visits, labels⟩) hs hx ha hk
    | push w k => exact .serveValue (G := ⟨visits, labels⟩) hW hs hx ha hk
  | flow f k =>
    obtain ⟨p, hx, ha, hk⟩ := hf
    cases k with
    | bottom => exact .intro (G := ⟨visits, labels⟩) hs ⟨p, hx, ha, hk⟩
    | push w k => exact .serveFlow (G := ⟨visits, labels⟩) hW hs hx ha hk
  | raise e k =>
    obtain ⟨p, hk⟩ := hf
    cases k with
    | bottom => exact .raise (G := ⟨visits, labels⟩) hs hk
    | push w k => exact .unwind (G := ⟨visits, labels⟩) hs hk

theorem InPlace.run {visits : Site → Visit → Prop} (hW : Layout.Closed visits) {m : Machine}
    (h : m.InPlace visits) (n : Nat) : (m.run n).InPlace visits := by
  induction n generalizing m with
  | zero => exact h
  | succ n ih => rw [run_succ]; exact ih (h.step hW)

end Machine

end Lox
