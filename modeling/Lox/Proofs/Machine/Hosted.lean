/-
Who carries out what. What a machine has to do in a function is above the call
of this function on the stack, and what stands outside of all functions has no
call below it (`Stack.Runs`); the environments on the way down to a call have the
receiver of the function that is called. So the value of a `return` always has a
call to go to. Every step keeps this (`Runs.step`), whatever the program does.
-/
import Lox.Proofs.Machine.Known

namespace Lox

/-! ## What waits -/

/-- The call that runs, and what waits for its value. -/
def Stack.caller? : {a : Yield} → Stack a → Option (Closure × Stack .value)
  | _, .bottom => none
  | _, .push (.body f) k => some (f, k)
  | _, .push _ k => k.caller?

/-- What a waiting computation has still to carry out. -/
def Waiting.sites {a b : Yield} : Waiting a b → List Site
  | .binaryLeft _ right | .logical _ right => [.expr right]
  | .callee _ args => [.exprs args]
  | .argument _ _ _ rest => [.exprs rest]
  | .fieldObject _ e => [.expr e]
  | .branch thenPart elsePart => .stmt thenPart :: elsePart.toList.map .stmt
  | .loopTest test inner | .loopBody test inner => [.expr test, .stmt inner]
  | .block rest _ | .program rest => [.stmts rest]
  | _ => []

/-- Nothing writes the receiver, a value is returned from no initializer, and a program runs outside
of all functions. -/
def Waiting.Suits {a b : Yield} (host : Option Closure) : Waiting a b → Prop
  | .assign _ name | .define name => name.lexeme ≠ receiverName
  | .ret => ∃ f, host = some f ∧ f.isInit = false
  | .program _ => host = none
  | _ => True

/-- Neither a block nor a body, which change the environment or the function when they are served. -/
def Waiting.Straight {a b : Yield} : Waiting a b → Prop
  | .block .. | .body _ => False
  | _ => True

/-- The values are known, and the rest was visited in a function of the sort that carries it out. -/
structure Waiting.Known (visits : Site → Visit → Prop) (s : Store) (host : Option Closure)
    {a b : Yield} (w : Waiting a b) : Prop where
  values : ∀ v ∈ w.values, v.Known visits s
  sites : ∀ site ∈ w.sites, Hosted visits host site
  suits : w.Suits host

/-- What waits goes on in this environment, in a call of this function or in none. A call of a
function starts in a block inside of its environment. -/
inductive Stack.Runs (visits : Site → Visit → Prop) (s : Store) :
    {a : Yield} → Stack a → Env → Option Closure → Prop
  | bottom {a env} : env.In s → Runs visits s (.bottom : Stack a) env none
  | push {a b} {w : Waiting a b} {k env host} : w.Straight → w.Known visits s host →
    Runs visits s k env host → Runs visits s (.push w k) env host
  | block {rest around k env host} : Hosted visits host (.stmts rest) → env.In s →
    s.receiver? env = s.receiver? around → Runs visits s k around host →
    Runs visits s (.push (.block rest around) k) env host
  | call {rest around f k env host} : Hosted visits (some f) (.stmts rest) →
    (Value.callable (.closure f)).Known visits s → env.In s →
    s.receiver? env = s.receiver? f.env → Runs visits s k around host →
    Runs visits s (.push (.block rest around) (.push (.body f) k)) env (some f)

/-- What waits for the end of a statement. When the statement was the body of a function, the
environment is that of the call again. -/
inductive Stack.Ends (visits : Site → Visit → Prop) (s : Store) :
    Stack .flow → Env → Option Closure → Prop
  | inside {k env host} : k.Runs visits s env host → Ends visits s k env host
  | body {f k env host} : (Value.callable (.closure f)).Known visits s →
    k.Runs visits s env host → Ends visits s (.push (.body f) k) env (some f)

/-- A value is returned in a function only, and in an initializer only `nil`. -/
def Flow.Known (visits : Site → Visit → Prop) (s : Store) (host : Option Closure) : Flow → Prop
  | .normal => True
  | .returned v => v.Known visits s ∧ ∃ f, host = some f ∧ (f.isInit = true → v = .nil)

def Control.Known (visits : Site → Visit → Prop) (s : Store) (env : Env) : Control → Prop
  | .eval e k => ∃ host, Hosted visits host (.expr e) ∧ k.Runs visits s env host
  | .exec stmt k => ∃ host, Hosted visits host (.stmt stmt) ∧ k.Runs visits s env host
  | .value v k => v.Known visits s ∧ ∃ host, k.Runs visits s env host
  | .flow f k => ∃ host, f.Known visits s host ∧ k.Ends visits s env host
  | .raise _ k => ∀ v ∈ k.values, v.Known visits s

/-- All that the machine holds is known, and is carried out where it belongs. -/
structure Machine.Known (visits : Site → Visit → Prop) (m : Machine) : Prop where
  store : m.state.store.Known visits
  control : m.control.Known visits m.state.store m.state.env

variable {visits : Site → Visit → Prop} {s s' : Store} {env : Env} {host : Option Closure}

namespace Stack.Runs

variable {a : Yield} {k : Stack a}

theorem env_in (h : k.Runs visits s env host) : env.In s := by
  induction h with
  | bottom he => exact he
  | push _ _ _ ih => exact ih
  | block _ he => exact he
  | call _ _ he => exact he

/-- What is carried out is carried out by the call on the stack. -/
theorem caller? (h : k.Runs visits s env host) : k.caller?.map Prod.fst = host := by
  induction h with
  | bottom => rfl
  | @push _ _ w _ _ _ hw _ _ ih => cases w <;> first | exact ih | exact hw.elim
  | block _ _ _ _ ih => exact ih
  | call => rfl

/-- In a call the receiver is that of the function. -/
theorem receiver? (h : k.Runs visits s env host) {f : Closure} (hf : host = some f) :
    s.receiver? env = s.receiver? f.env := by
  induction h with
  | bottom => cases hf
  | push _ _ _ ih => exact ih hf
  | block _ _ hr _ ih => exact hr.trans (ih hf)
  | call _ _ _ hr => cases hf; exact hr

theorem receiver?_of_caller? (h : k.Runs visits s env host) {f : Closure} {rest : Stack .value}
    (hf : k.caller? = some (f, rest)) : s.receiver? env = s.receiver? f.env :=
  h.receiver? (by rw [← h.caller?, hf]; rfl)

theorem values (h : k.Runs visits s env host) : ∀ v ∈ k.values, v.Known visits s := by
  induction h with
  | bottom => nofun
  | push _ hw _ ih => exact List.forall_mem_append.2 ⟨hw.values, ih⟩
  | block _ _ _ _ ih => exact ih
  | call _ hf _ _ _ ih => exact List.forall_mem_cons.2 ⟨hf, ih⟩

theorem keeps (h : k.Runs visits s env host) (hk : s.Keeps s') : k.Runs visits s' env host := by
  induction h with
  | bottom he => exact .bottom (hk.env_in he)
  | push hp hw _ ih =>
    exact .push hp ⟨fun v hv => (hw.values v hv).keeps hk, hw.sites, hw.suits⟩ ih
  | block hrest he hr hrun ih =>
    refine .block hrest (hk.env_in he) ?_ ih
    rw [hk.receiver? he, hk.receiver? hrun.env_in, hr]
  | call hrest hf he hr _ ih =>
    refine .call hrest (hf.keeps hk) (hk.env_in he) ?_ ih
    rw [hk.receiver? he, hk.receiver? hf.1.env, hr]

end Stack.Runs

theorem Stack.Ends.values {k : Stack .flow} (h : k.Ends visits s env host) :
    ∀ v ∈ k.values, v.Known visits s := by
  cases h with
  | inside h => exact h.values
  | body hf h => exact List.forall_mem_cons.2 ⟨hf, h.values⟩

theorem Control.Known.values {visits : Site → Visit → Prop} {s : Store} {env : Env} {c : Control}
    (h : c.Known visits s env) : ∀ v ∈ c.values, v.Known visits s := by
  cases c with
  | eval e k | exec stmt k =>
    obtain ⟨host, -, hk⟩ := h
    exact hk.values
  | value v k =>
    obtain ⟨hv, host, hk⟩ := h
    exact List.forall_mem_cons.2 ⟨hv, hk.values⟩
  | flow f k =>
    obtain ⟨host, hf, hk⟩ := h
    cases f with
    | normal => exact hk.values
    | returned v => exact List.forall_mem_cons.2 ⟨hf.1, hk.values⟩
  | raise e k => exact h

/-- All values that exist are known. -/
theorem Machine.Known.all {visits : Site → Visit → Prop} {m : Machine} (h : m.Known visits) :
    m.All (Value.Known visits m.state.store) :=
  ⟨h.store, h.control.values⟩

namespace Machine

variable {s : State}

/-- The machine is known, and its store keeps what was in the other one. -/
structure Onward (visits : Site → Visit → Prop) (s : Store) (m : Machine) : Prop
    extends m.Known visits where
  keeps : s.Keeps m.state.store

namespace Onward

/-- Behind a change to the store. -/
theorem after {t t' : Store} {m : Machine} (hk : t.Keeps t') (h : Onward visits t' m) :
    Onward visits t m :=
  ⟨h.toKnown, hk.trans h.keeps⟩

theorem value {v : Value} {k : Stack .value} (hs : s.store.Known visits)
    (hv : v.Known visits s.store) (hk : k.Runs visits s.store s.env host) :
    Onward visits s.store ⟨s, .value v k⟩ :=
  ⟨⟨hs, hv, host, hk⟩, .refl _⟩

theorem raise {a : Yield} {e : RuntimeError} {k : Stack a} (hs : s.store.Known visits)
    (hk : ∀ v ∈ k.values, v.Known visits s.store) : Onward visits s.store ⟨s, .raise e k⟩ :=
  ⟨⟨hs, hk⟩, .refl _⟩

theorem eval {e : Expr} {k : Stack .value} (hs : s.store.Known visits)
    (he : Hosted visits host (.expr e)) (hk : k.Runs visits s.store s.env host) :
    Onward visits s.store ⟨s, .eval e k⟩ :=
  ⟨⟨hs, host, he, hk⟩, .refl _⟩

theorem exec {stmt : Stmt} {k : Stack .flow} (hs : s.store.Known visits)
    (hstmt : Hosted visits host (.stmt stmt)) (hk : k.Runs visits s.store s.env host) :
    Onward visits s.store ⟨s, .exec stmt k⟩ :=
  ⟨⟨hs, host, hstmt, hk⟩, .refl _⟩

theorem flow {f : Flow} {k : Stack .flow} (hs : s.store.Known visits)
    (hf : f.Known visits s.store host) (hk : k.Ends visits s.store s.env host) :
    Onward visits s.store ⟨s, .flow f k⟩ :=
  ⟨⟨hs, host, hf, hk⟩, .refl _⟩

theorem normal {k : Stack .flow} (hs : s.store.Known visits)
    (hk : k.Runs visits s.store s.env host) : Onward visits s.store ⟨s, .flow .normal k⟩ :=
  flow hs trivial (.inside hk)

theorem ofResult {r : Except RuntimeError Value} {k : Stack .value} (hs : s.store.Known visits)
    (hr : ∀ x, r = .ok x → x.Known visits s.store) (hk : k.Runs visits s.store s.env host) :
    Onward visits s.store ⟨s, .ofResult r k⟩ := by
  cases r with
  | ok x => exact value hs (hr x rfl) hk
  | error e => exact raise hs hk.values

/-! ## Calls -/

theorem assign {id : NodeId} {name : Token} {v : Value} {k : Stack .value}
    (hs : s.store.Known visits) (hn : name.lexeme ≠ receiverName) (hv : v.Known visits s.store)
    (hk : k.Runs visits s.store s.env host) : Onward visits s.store (assign s id name v k) := by
  unfold Machine.assign
  split
  next f _ =>
    have hkeeps := s.store.keeps_setVar f hn v
    exact after hkeeps (value (s := s.modifyStore fun store => store.setVar f name.lexeme v)
      (hs.setVar f hn hv) (hv.keeps hkeeps) (hk.keeps hkeeps))
  next => exact raise hs hk.values

theorem property {o : Instance} {name : Token} {k : Stack .value} (hs : s.store.Known visits)
    (ho : (Value.object o).Known visits s.store) (hk : k.Runs visits s.store s.env host) :
    Onward visits s.store (property s o name k) := by
  unfold Machine.property
  split
  next v hv => exact value hs (hs.fields _ _ _ hv) hk
  next =>
    split
    next f hf =>
      obtain ⟨hstore, hbound⟩ := hs.bind (ho.2 _ f hf).1 ho
      have hkeeps := s.store.keeps_bind f o
      exact after hkeeps (value (s := { s with store := (s.store.bind f o).2 }) hstore hbound
        (hk.keeps hkeeps))
    next => exact raise hs hk.values

/-- The body of a function starts in a new frame inside of its environment. -/
theorem enterBody {f : Closure} {args : List Value} {k : Stack .value}
    (hs : s.store.Known visits) (hf : (Value.callable (.closure f)).Known visits s.store)
    (hargs : ∀ v ∈ args, v.Known visits s.store) (hk : k.Runs visits s.store s.env host) :
    Onward visits s.store (enterBody s f args k) := by
  have hvars : ∀ name v,
      (Bindings.ofList ((f.decl.params.map Token.lexeme).zip args)).get? name = some v →
        name ≠ receiverName ∧ v.Known visits s.store := by
    intro name v hv
    obtain ⟨hname, harg⟩ := Bindings.get?_ofList_zip hv
    obtain ⟨param, hparam, rfl⟩ := List.mem_map.1 hname
    exact ⟨hf.1.params param hparam, hargs v harg⟩
  have hnone : (Bindings.ofList ((f.decl.params.map Token.lexeme).zip args)).get? receiverName =
      none := Option.eq_none_iff_forall_ne_some.2 fun v hv => (hvars _ v hv).1 rfl
  unfold Machine.enterBody
  generalize Bindings.ofList ((f.decl.params.map Token.lexeme).zip args) = vars at hvars hnone
  have hkeeps := s.store.keeps_addFrame vars
  have hreceiver := (Store.receiver?_childEnv_of_none hf.1.env hnone).trans
    (hkeeps.receiver? hf.1.env).symm
  exact after hkeeps (normal (s := { s.enter f.env vars with depth := s.depth + 1 })
    (hs.addFrame fun name v hv => (hvars name v hv).2)
    (.call hf.1.body (hf.keeps hkeeps) (Store.in_childEnv hf.1.env _) hreceiver (hk.keeps hkeeps)))

theorem callNative {f : Native} {args : List Value} {k : Stack .value} (hs : s.store.Known visits)
    (hk : k.Runs visits s.store s.env host) : Onward visits s.store (callNative s f args k) := by
  obtain ⟨time, v, hv, hcall⟩ := callNative_cases s f args k
  rw [hcall]
  exact value (s := { s with time }) hs (.of_plain hv) hk

theorem instantiate {c : Class} {args : List Value} {k : Stack .value} (hs : s.store.Known visits)
    (hc : c.Known visits s.store) (hargs : ∀ v ∈ args, v.Known visits s.store)
    (hk : k.Runs visits s.store s.env host) : Onward visits s.store (instantiate s c args k) := by
  have hobject := s.store.keeps_addObject
  have hs' := hs.addObject
  have ho : (Value.object ⟨s.store.objects.size, c⟩).Known visits s.store.addObject.2 := by
    refine ⟨?_, hc.mono (fun _ _ hv => hv) hobject⟩
    rw [Store.size_addObject]
    exact Nat.lt_succ_self _
  have hk' := hk.keeps hobject
  unfold Machine.instantiate
  simp only [State.withStore_eq]
  split
  next => exact after hobject (value (s := { s with store := s.store.addObject.2 }) hs' ho hk')
  next f hf =>
    obtain ⟨hstore, hbound⟩ := hs'.bind (ho.2 _ f hf).1 ho
    have hbind := s.store.addObject.2.keeps_bind f ⟨s.store.objects.size, c⟩
    have hkeeps := hobject.trans hbind
    have hconstruct : (Waiting.construct ⟨s.store.objects.size, c⟩).Known visits
        (s.store.addObject.2.bind f ⟨s.store.objects.size, c⟩).2 host :=
      ⟨by simpa [Waiting.values] using ho.keeps hbind, by simp [Waiting.sites], trivial⟩
    exact after hkeeps (enterBody
      (s := { s with store := (s.store.addObject.2.bind f ⟨s.store.objects.size, c⟩).2 })
      hstore hbound (fun v hv => (hargs v hv).keeps hkeeps)
      (.push trivial hconstruct (hk.keeps hkeeps)))

theorem call {callee : Value} {paren : Token} {args : List Value} {k : Stack .value}
    (hs : s.store.Known visits) (hc : callee.Known visits s.store)
    (hargs : ∀ v ∈ args, v.Known visits s.store) (hk : k.Runs visits s.store s.env host) :
    Onward visits s.store (call s callee paren args k) := by
  obtain ⟨e, hcall⟩ | ⟨f, rfl, -, -, hcall⟩ := call_cases s callee paren args k
  · rw [hcall]
    exact raise hs hk.values
  · rw [hcall]
    cases f with
    | native f => exact callNative hs hk
    | closure f => exact enterBody hs hc hargs hk
    | «class» c => exact instantiate hs hc hargs hk

theorem nextArgument (hW : Layout.Closed visits) {callee : Value} {paren : Token}
    {done : List Value} {rest : List Expr} {k : Stack .value} (hs : s.store.Known visits)
    (hc : callee.Known visits s.store) (hdone : ∀ v ∈ done, v.Known visits s.store)
    (hrest : Hosted visits host (.exprs rest)) (hk : k.Runs visits s.store s.env host) :
    Onward visits s.store (nextArgument s callee paren done rest k) := by
  cases rest with
  | nil => exact call hs hc (fun v hv => hdone v (List.mem_reverse.1 hv)) hk
  | cons e rest =>
    obtain ⟨v, hv, hh⟩ := hrest
    have hw : (Waiting.argument callee paren done rest).Known visits s.store host :=
      ⟨List.forall_mem_cons.2 ⟨hc, hdone⟩,
        by simpa [Waiting.sites] using hW.hostedSecond hv hh rfl, trivial⟩
    exact eval hs (hW.hostedFirst hv hh rfl) (.push trivial hw hk)

/-! ## Expressions and statements -/

theorem start (hW : Layout.Lawful visits) {e : Expr} {k : Stack .value}
    (hs : s.store.Known visits) (he : Hosted visits host (.expr e))
    (hk : k.Runs visits s.store s.env host) : Onward visits s.store (Machine.eval s k e) := by
  obtain ⟨v, hv, hh⟩ := he
  have wait {b : Yield} {w : Waiting .value b} (hvalues : w.values = [])
      (hsites : ∀ site ∈ w.sites, Hosted visits host site) (hsuits : w.Suits host) :
      w.Known visits s.store host := ⟨by simp [hvalues], hsites, hsuits⟩
  cases e with
  | literal l => exact value hs (Value.Known.of_plain l.plain) hk
  | grouping e => exact eval hs (hW.hostedOnly hv hh rfl) hk
  | unary op e =>
    exact eval hs (hW.hostedOnly hv hh rfl)
      (.push trivial (wait rfl (by simp [Waiting.sites]) trivial) hk)
  | binary left op right | logical left op right =>
    have hright : Hosted visits host (.expr right) := hW.hostedSecond hv hh rfl
    exact eval hs (hW.hostedFirst hv hh rfl)
      (.push trivial (wait rfl (by simpa [Waiting.sites] using hright) trivial) hk)
  | «variable» id name | this id name =>
    refine ofResult hs (fun x hx => ?_) hk
    obtain ⟨frame, hframe⟩ := State.frame_of_lookUp hx
    exact hs.vars _ _ _ hframe
  | assign id name e =>
    exact eval hs (hW.hostedOnly hv hh rfl)
      (.push trivial (wait rfl (by simp [Waiting.sites]) (hW.writes hv)) hk)
  | call callee paren args =>
    have hargs : Hosted visits host (.exprs args) := hW.hostedSecond hv hh rfl
    exact eval hs (hW.hostedFirst hv hh rfl)
      (.push trivial (wait rfl (by simpa [Waiting.sites] using hargs) trivial) hk)
  | get object name =>
    exact eval hs (hW.hostedOnly hv hh rfl)
      (.push trivial (wait rfl (by simp [Waiting.sites]) trivial) hk)
  | set object name e =>
    have he : Hosted visits host (.expr e) := hW.hostedFirst hv hh rfl
    exact eval hs (hW.hostedSecond hv hh rfl)
      (.push trivial (wait rfl (by simpa [Waiting.sites] using he) trivial) hk)

theorem define {name : Token} {x : Value} {k : Stack .flow} (hs : s.store.Known visits)
    (hn : name.lexeme ≠ receiverName) (hx : x.Known visits s.store)
    (hk : k.Runs visits s.store s.env host) :
    Onward visits s.store ⟨s.define name x, .flow .normal k⟩ := by
  have hkeeps := s.store.keeps_setVar s.env.frame hn x
  exact after hkeeps (normal (s := s.define name x) (hs.setVar s.env.frame hn hx) (hk.keeps hkeeps))

/-- A declaration binds a value that gets a number of its own. -/
theorem defineNew {name : Token} {x : Value} {stamp : Nat} {k : Stack .flow}
    (hs : s.store.Known visits) (hn : name.lexeme ≠ receiverName)
    (hx : x.Known visits s.store) (hk : k.Runs visits s.store s.env host) :
    Onward visits s.store ⟨({ s with store := { s.store with nextStamp := stamp } } : State).define name x,
      .flow .normal k⟩ :=
  have hkeeps : s.store.Keeps { s.store with nextStamp := stamp } := .of_eq rfl rfl
  after hkeeps (define (s := { s with store := { s.store with nextStamp := stamp } }) (hs.stamp stamp)
    hn (hx.keeps hkeeps) (hk.keeps hkeeps))

end Onward

end Machine

/-- Code that stands in a function is carried out by a call. -/
theorem Hosts.some_of_ne {context : FunctionContext} (h : Hosts host context)
    (hc : context ≠ .none) :
    ∃ f, host = some f ∧ (f.isInit = true ↔ context = .initializer) := by
  cases host with
  | none => exact absurd h hc
  | some f => exact ⟨f, rfl, h.2.symm⟩

namespace Machine

variable {s : State}

namespace Onward

theorem carryOut (hW : Layout.Lawful visits) {stmt : Stmt} {k : Stack .flow}
    (hs : s.store.Known visits) (hstmt : Hosted visits host (.stmt stmt))
    (hk : k.Runs visits s.store s.env host) : Onward visits s.store (Machine.exec s k stmt) := by
  obtain ⟨v, hv, hh⟩ := hstmt
  have hproper : stmt.Proper := (hW.fine hv).proper
  have hclean := (hW.fine hv).clean
  have wait {b : Yield} {w : Waiting .value b} (hvalues : w.values = [])
      (hsites : ∀ site ∈ w.sites, Hosted visits host site) (hsuits : w.Suits host) :
      w.Known visits s.store host := ⟨by simp [hvalues], hsites, hsuits⟩
  cases stmt with
  | expression e =>
    exact eval hs (hW.hostedOnly hv hh rfl)
      (.push trivial (wait rfl (by simp [Waiting.sites]) trivial) hk)
  | print e =>
    exact eval hs (hW.hostedOnly hv hh rfl)
      (.push trivial (wait rfl (by simp [Waiting.sites]) trivial) hk)
  | var name init =>
    have hn : name.lexeme ≠ receiverName := hproper.declared_ne rfl
    cases init with
    | none => exact define hs hn (x := .nil) trivial hk
    | some e =>
      exact eval hs (hW.hostedOnly hv hh rfl)
        (.push trivial (wait rfl (by simp [Waiting.sites]) hn) hk)
  | block body =>
    have hkeeps := s.store.keeps_addFrame .empty
    have hin := hk.env_in
    have hnone : (Bindings.empty : Bindings Value).get? receiverName = none := rfl
    have hreceiver := (Store.receiver?_childEnv_of_none hin hnone).trans
      (hkeeps.receiver? hin).symm
    exact after hkeeps (normal (s := s.enter s.env .empty) (hs.addFrame fun _ _ h => by cases h)
      (.block (hW.hostedOnly hv hh rfl) (Store.in_childEnv hin _) hreceiver (hk.keeps hkeeps)))
  | cond test thenPart elsePart =>
    cases elsePart with
    | none =>
      have hthen : Hosted visits host (.stmt thenPart) := hW.hostedSecond hv hh rfl
      exact eval hs (hW.hostedFirst hv hh rfl)
        (.push trivial (wait rfl (by simpa [Waiting.sites] using hthen) trivial) hk)
    | some elsePart =>
      have hthen : Hosted visits host (.stmt thenPart) := hW.hostedSecond hv hh rfl
      have helse : Hosted visits host (.stmt elsePart) :=
        hW.hosted hv hh (List.mem_cons_of_mem _ (List.mem_cons_of_mem _ (List.mem_singleton.2 rfl)))
      exact eval hs (hW.hostedFirst hv hh rfl)
        (.push trivial (wait rfl (by simpa [Waiting.sites] using ⟨hthen, helse⟩) trivial) hk)
  | «while» test body =>
    have htest : Hosted visits host (.expr test) := hW.hostedFirst hv hh rfl
    have hbody : Hosted visits host (.stmt body) := hW.hostedSecond hv hh rfl
    exact eval hs htest
      (.push trivial (wait rfl (by simpa [Waiting.sites] using ⟨htest, hbody⟩) trivial) hk)
  | function decl =>
    refine defineNew (x := .callable (.closure ⟨s.store.nextStamp, decl, s.env, false⟩)) hs
      (hproper.declared_ne rfl) ⟨.of_visited hW.toClosed (hW.only hv rfl) ?_ hk.env_in, nofun⟩ hk
    simp [Hosts]
  | ret keyword value =>
    cases value with
    | none =>
      obtain ⟨f, rfl, -⟩ := hh.some_of_ne (Resolution.checkReturn_clean _ hclean).1
      exact flow hs ⟨trivial, f, rfl, fun _ => rfl⟩ (.inside hk)
    | some e =>
      have hreturn := Resolution.checkReturn_clean _ ((e.resolve_reaches _).clean hclean)
      obtain ⟨f, rfl, hi⟩ := hh.some_of_ne hreturn.1
      have hfalse : f.isInit = false := Bool.eq_false_iff.2 fun h => hreturn.2 rfl (hi.1 h)
      exact eval hs (hW.hostedOnly hv hh rfl)
        (.push trivial (wait rfl (by simp [Waiting.sites]) ⟨f, rfl, hfalse⟩) hk)
  | «class» name decls =>
    obtain ⟨stamp, hstore⟩ := Store.methods_store s.env decls s.store .empty
    simp only [Machine.exec, State.withStore_eq, hstore, Store.freshStamp]
    exact defineNew hs (hproper.declared_ne rfl)
      (Class.known_methods hW.toClosed (hW.only hv rfl) hk.env_in _ _) hk

/-! ## What waits is served -/

theorem serveValue (hW : Layout.Lawful visits) {x : Value} {b : Yield} {w : Waiting .value b}
    {k : Stack b} (hs : s.store.Known visits) (hx : x.Known visits s.store)
    (hw : w.Known visits s.store host) (hk : k.Runs visits s.store s.env host) :
    Onward visits s.store (serveValue s x w k) := by
  obtain ⟨hvalues, hsites, hsuits⟩ := hw
  have wait {c : Yield} {u : Waiting .value c} (hu : ∀ v ∈ u.values, v.Known visits s.store)
      (hcode : ∀ site ∈ u.sites, Hosted visits host site) (hp : u.Suits host) :
      u.Known visits s.store host := ⟨hu, hcode, hp⟩
  cases w with
  | unary op => exact ofResult hs (fun y hy => .of_plain (plain_unaryOperation hy)) hk
  | binaryLeft op right =>
    exact eval hs (hsites _ (List.mem_singleton.2 rfl))
      (.push trivial (wait (by simpa [Waiting.values] using hx) (by simp [Waiting.sites]) trivial) hk)
  | binaryRight left op =>
    exact ofResult hs (fun y hy => .of_plain (plain_binaryOperation hy)) hk
  | logical op right =>
    rw [Machine.serveValue]
    split
    · exact value hs hx hk
    · exact eval hs (hsites _ (List.mem_singleton.2 rfl)) hk
  | assign id name => exact assign hs hsuits hx hk
  | callee paren args =>
    exact nextArgument hW.toClosed hs hx (fun _ h => by cases h) (hsites _ (List.mem_singleton.2 rfl)) hk
  | argument f paren done rest =>
    obtain ⟨hf, hdone⟩ := List.forall_mem_cons.1 hvalues
    exact nextArgument hW.toClosed hs hf (List.forall_mem_cons.2 ⟨hx, hdone⟩)
      (hsites _ (List.mem_singleton.2 rfl)) hk
  | property name =>
    cases x with
    | object o => exact property hs hx hk
    | _ => exact raise hs hk.values
  | fieldObject name e =>
    cases x with
    | object o =>
      exact eval hs (hsites _ (List.mem_singleton.2 rfl))
        (.push trivial (wait (by simpa [Waiting.values] using hx) (by simp [Waiting.sites]) trivial) hk)
    | _ => exact raise hs hk.values
  | fieldValue o name =>
    have hkeeps := s.store.keeps_setField o.id name.lexeme x
    exact after hkeeps (value
      (s := s.modifyStore fun store => store.setField o.id name.lexeme x)
      (hs.setField o.id name.lexeme hx) (hx.keeps hkeeps) (hk.keeps hkeeps))
  | construct o => exact value hs (hvalues _ (List.mem_singleton.2 rfl)) hk
  | discard => exact normal hs hk
  | print => exact normal (s := { s with output := s.output.push x.text }) hs hk
  | define name => exact define hs hsuits hx hk
  | branch thenPart elsePart =>
    obtain ⟨hthen, helse⟩ := List.forall_mem_cons.1 hsites
    cases elsePart with
    | none =>
      rw [Machine.serveValue]
      split
      · exact exec hs hthen hk
      · exact normal hs hk
    | some elsePart =>
      rw [Machine.serveValue]
      split
      · exact exec hs hthen hk
      · exact exec hs (helse _ (List.mem_singleton.2 rfl)) hk
  | loopTest test body =>
    rw [Machine.serveValue]
    split
    · exact exec hs (hsites _ (List.mem_cons_of_mem _ (List.mem_singleton.2 rfl)))
        (.push trivial ⟨by simp [Waiting.values], hsites, trivial⟩ hk)
    · exact normal hs hk
  | ret =>
    obtain ⟨f, rfl, hi⟩ := hsuits
    exact flow hs ⟨hx, f, rfl, fun h => absurd h (Bool.eq_false_iff.1 hi)⟩ (.inside hk)

theorem serveFlow (hW : Layout.Lawful visits) {f : Flow} {b : Yield} {w : Waiting .flow b}
    {k : Stack b} (hs : s.store.Known visits) (hf : f.Known visits s.store host)
    (hk : (Stack.push w k).Ends visits s.store s.env host) :
    Onward visits s.store (serveFlow s f w k) := by
  -- The rest of a block runs in the same call as the block.
  have next {rest : List Stmt} {k : Stack .flow} {stmt : Stmt}
      (hrest : Hosted visits host (.stmts (stmt :: rest)))
      (hk : Hosted visits host (.stmts rest) → k.Runs visits s.store s.env host) :
      Onward visits s.store ⟨s, .exec stmt k⟩ := by
    obtain ⟨v, hv, hh⟩ := hrest
    exact exec hs (hW.hostedFirst hv hh rfl) (hk (hW.hostedSecond hv hh rfl))
  have block {rest : List Stmt} {around : Env} {k : Stack .flow}
      (hrest : Hosted visits host (.stmts rest))
      (hstay : ∀ rest, Hosted visits host (.stmts rest) →
        (Stack.push (.block rest around) k).Runs visits s.store s.env host)
      (hleave : k.Ends visits s.store around host) :
      Onward visits s.store (Machine.serveFlow s f (.block rest around) k) := by
    cases f with
    | normal =>
      cases rest with
      | nil => exact flow (s := { s with env := around }) hs hf hleave
      | cons stmt rest => exact next hrest (hstay rest)
    | returned v => exact flow (s := { s with env := around }) hs hf hleave
  cases hk with
  | body hclosure hk =>
    have hreturned : ∀ v, f = .returned v → v.Known visits s.store := by
      rintro v rfl
      exact hf.1
    exact ofResult (s := { s with depth := s.depth - 1 }) hs
      (fun x hx => Store.All.result hs (fun _ => .of_plain) hreturned hx) hk
  | inside hk =>
    cases hk with
    | block hrest hin hr hk =>
      exact block hrest (fun _ hrest => .block hrest hin hr hk) (.inside hk)
    | call hrest hclosure hin hr hk =>
      exact block hrest (fun _ hrest => .call hrest hclosure hin hr hk) (.body hclosure hk)
    | push hp hw hk =>
      obtain ⟨-, hsites, hsuits⟩ := hw
      cases w with
      | block | body => exact hp.elim
      | loopBody test body =>
        cases f with
        | normal =>
          exact eval hs (hsites _ (List.mem_cons_self ..))
            (.push trivial ⟨by simp [Waiting.values], hsites, trivial⟩ hk)
        | returned v => exact flow hs hf (.inside hk)
      | program rest =>
        cases rest with
        | nil => exact normal hs hk
        | cons stmt rest =>
          refine next (hsites _ (List.mem_singleton.2 rfl)) fun hrest => ?_
          exact .push trivial ⟨by simp [Waiting.values], by simpa [Waiting.sites] using hrest, hsuits⟩ hk

end Onward

/-! ## Steps and runs -/

/-- A step keeps the machine known and the receivers of all frames. -/
theorem Known.step (hW : Layout.Lawful visits) {m : Machine} (h : m.Known visits) :
    Onward visits m.state.store m.step := by
  obtain ⟨s, c⟩ := m
  obtain ⟨hs, hc⟩ := h
  cases c with
  | eval e k =>
    obtain ⟨host, he, hk⟩ := hc
    exact .start hW hs he hk
  | exec stmt k =>
    obtain ⟨host, hstmt, hk⟩ := hc
    exact .carryOut hW hs hstmt hk
  | value x k =>
    obtain ⟨hx, host, hk⟩ := hc
    cases k with
    | bottom => exact .value hs hx hk
    | push w k =>
      cases hk with
      | push hp hw hk => exact .serveValue hW hs hx hw hk
  | flow f k =>
    obtain ⟨host, hf, hk⟩ := hc
    cases k with
    | bottom => exact .flow hs hf hk
    | push w k => exact .serveFlow hW hs hf hk
  | raise e k =>
    cases k with
    | bottom => exact .raise hs hc
    | push w k =>
      have hk : ∀ v ∈ k.values, v.Known visits s.store := (List.forall_mem_append.1 hc).2
      cases w with
      | block rest around => exact .raise (s := { s with env := around }) hs hk
      | body f => exact .raise (s := { s with depth := s.depth - 1 }) hs hk
      | _ => exact .raise hs hk

theorem Known.run (hW : Layout.Lawful visits) {m : Machine} (h : m.Known visits) (n : Nat) :
    Onward visits m.state.store (m.run n) := by
  induction n generalizing m with
  | zero => exact ⟨h, .refl _⟩
  | succ n ih =>
    have hstep := h.step hW
    rw [run_succ]
    exact .after hstep.keeps (ih hstep.toKnown)

end Machine

end Lox
