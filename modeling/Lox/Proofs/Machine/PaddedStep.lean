/-
Steps over stores that differ by empty frames. Two machines that look names up
along the frames do the same if their stacks wait for the same things, where the
stack of the second one may have something of its own at the bottom (`Below`).
What is declared goes into the current frame, so that must not be a spare one
where a declaration is carried out.
-/
import Lox.Proofs.Machine.Padded

namespace Lox

/-- The statement declares nothing in the frame in which it is carried out. -/
def Stmt.Undeclaring : Stmt → Prop
  | .var .. | .function _ | .class .. => False
  | .cond _ thenPart none => thenPart.Undeclaring
  | .cond _ thenPart (some elsePart) => thenPart.Undeclaring ∧ elsePart.Undeclaring
  | .while _ body => body.Undeclaring
  | .expression _ | .print _ | .block _ | .ret .. => True

/-! ## Machines -/

/-- The same state up to spare frames, in which no distances are recorded. -/
structure State.Padded (W : World) (s s' : State) : Prop where
  store : s.store.Padded W s'.store
  env : s.env.Padded W s'.env
  depth : s'.depth = s.depth
  unresolved : ∀ id : NodeId, s.distances[id]? = none
  unresolved' : ∀ id : NodeId, s'.distances[id]? = none
  output : s'.output = s.output
  time : s'.time = s.time

/-- The statement may be carried out in these environments. -/
def Stmt.Fits (W : World) (env env' : Env) (stmt : Stmt) : Prop :=
  env.Anchored W env' ∨ stmt.Undeclaring

/-- Statements that ended in the same way. -/
inductive Flow.Padded (W : World) : Flow → Flow → Prop
  | normal : Padded W .normal .normal
  | returned {v v' : Value} : v.Padded W v' → Padded W (.returned v) (.returned v')

/-- The same computation that waits, to be served in these environments. -/
inductive Waiting.Padded (W : World) (env env' : Env) :
    {a b : Yield} → Waiting a b → Waiting a b → Prop
  | unary (op) : Padded W env env' (.unary op) (.unary op)
  | binaryLeft (op right) : Padded W env env' (.binaryLeft op right) (.binaryLeft op right)
  | binaryRight {left left' : Value} (op) : left.Padded W left' →
    Padded W env env' (.binaryRight left op) (.binaryRight left' op)
  | logical (op right) : Padded W env env' (.logical op right) (.logical op right)
  | assign (id name) : Padded W env env' (.assign id name) (.assign id name)
  | callee (paren args) : Padded W env env' (.callee paren args) (.callee paren args)
  | argument {callee callee' : Value} {done done' : List Value} (paren rest) :
    callee.Padded W callee' → List.Forall₂ (Value.Padded W) done done' →
    Padded W env env' (.argument callee paren done rest) (.argument callee' paren done' rest)
  | property (name) : Padded W env env' (.property name) (.property name)
  | fieldObject (name e) : Padded W env env' (.fieldObject name e) (.fieldObject name e)
  | fieldValue {o o' : Instance} (name) : o.Padded W o' →
    Padded W env env' (.fieldValue o name) (.fieldValue o' name)
  | construct {o o' : Instance} : o.Padded W o' →
    Padded W env env' (.construct o) (.construct o')
  | discard : Padded W env env' .discard .discard
  | print : Padded W env env' .print .print
  | define (name) : env.Anchored W env' → Padded W env env' (.define name) (.define name)
  | branch {thenPart elsePart} : thenPart.Fits W env env' →
    (∀ s, elsePart = some s → s.Fits W env env') →
    Padded W env env' (.branch thenPart elsePart) (.branch thenPart elsePart)
  | loopTest (test) {body} : body.Fits W env env' →
    Padded W env env' (.loopTest test body) (.loopTest test body)
  | loopBody (test) {body} : body.Fits W env env' →
    Padded W env env' (.loopBody test body) (.loopBody test body)
  | ret : Padded W env env' .ret .ret
  | body {f f' : Closure} : f.Padded W f' → Padded W env env' (.body f) (.body f')

/-- What lies at the bottom of the second stack, and the environments in which it is served. -/
structure Below (y : Yield) where
  stack : Stack y
  env : Env
  env' : Env

/-- The second stack waits for the same things, on top of what lies below. The end of a block leads
to other environments. -/
inductive Stack.Padded (W : World) {y : Yield} (B : Below y) :
    Env → Env → {a : Yield} → Stack a → Stack a → Prop
  | bottom {env env' : Env} : env = B.env → env' = B.env' → Padded W B env env' .bottom B.stack
  | push {env env' : Env} {a b : Yield} {w w' : Waiting a b} {k k' : Stack b} :
    w.Padded W env env' w' → Padded W B env env' k k' →
    Padded W B env env' (.push w k) (.push w' k')
  | block {env env' around around' : Env} (rest) {k k' : Stack .flow} : env.Anchored W env' →
    around.Padded W around' → Padded W B around around' k k' →
    Padded W B env env' (.push (.block rest around) k) (.push (.block rest around') k')

/-- Machines that are about to do the same. -/
inductive Control.Padded (W : World) {y : Yield} (B : Below y) (env env' : Env) :
    Control → Control → Prop
  | eval (e) {k k' : Stack .value} : k.Padded W B env env' k' →
    Padded W B env env' (.eval e k) (.eval e k')
  | exec {stmt : Stmt} {k k' : Stack .flow} : stmt.Fits W env env' → k.Padded W B env env' k' →
    Padded W B env env' (.exec stmt k) (.exec stmt k')
  | value {v v' : Value} {k k' : Stack .value} : v.Padded W v' → k.Padded W B env env' k' →
    Padded W B env env' (.value v k) (.value v' k')
  | flow {f f' : Flow} {k k' : Stack .flow} : f.Padded W f' → k.Padded W B env env' k' →
    Padded W B env env' (.flow f k) (.flow f' k')
  | raise (e) {a : Yield} {k k' : Stack a} : k.Padded W B env env' k' →
    Padded W B env env' (.raise e k) (.raise e k')

/-- Machines in the same state up to spare frames that are about to do the same. -/
structure Machine.Padded (W : World) {y : Yield} (B : Below y) (m m' : Machine) : Prop where
  state : m.state.Padded W m'.state
  control : m.control.Padded W B m.state.env m'.state.env m'.control

/-- The same, when more frames may have been made. -/
def Machine.PaddedOn (W : World) {y : Yield} (B : Below y) (m m' : Machine) : Prop :=
  ∃ W', W.Le W' ∧ Machine.Padded W' B m m'

variable {W W' : World} {y : Yield} {B : Below y} {env env' : Env}

/-! ## More frames -/

section

variable (hle : W.Le W')

include hle

theorem Stmt.Fits.mono {stmt : Stmt} (h : stmt.Fits W env env') : stmt.Fits W' env env' :=
  h.imp_left (Env.Anchored.mono hle)

theorem Waiting.Padded.mono {a b : Yield} {w w' : Waiting a b} (h : w.Padded W env env' w') :
    w.Padded W' env env' w' := by
  cases h with
  | unary op => exact .unary op
  | binaryLeft op right => exact .binaryLeft op right
  | binaryRight op hv => exact .binaryRight op (hv.mono hle)
  | logical op right => exact .logical op right
  | assign id name => exact .assign id name
  | callee paren args => exact .callee paren args
  | argument paren rest hc hd =>
    exact .argument paren rest (hc.mono hle) (hd.imp fun _ _ => .mono hle)
  | property name => exact .property name
  | fieldObject name e => exact .fieldObject name e
  | fieldValue name ho => exact .fieldValue name (ho.mono hle)
  | construct ho => exact .construct (ho.mono hle)
  | discard => exact .discard
  | print => exact .print
  | define name ha => exact .define name (ha.mono hle)
  | branch hthen helse => exact .branch (hthen.mono hle) fun s hs => (helse s hs).mono hle
  | loopTest test hb => exact .loopTest test (hb.mono hle)
  | loopBody test hb => exact .loopBody test (hb.mono hle)
  | ret => exact .ret
  | body hf => exact .body (hf.mono hle)

theorem Stack.Padded.mono {a : Yield} {k k' : Stack a} (h : k.Padded W B env env' k') :
    k.Padded W' B env env' k' := by
  induction h with
  | bottom he he' => exact .bottom he he'
  | push hw _ ih => exact .push (hw.mono hle) ih
  | block rest ha haround _ ih => exact .block rest (ha.mono hle) (haround.mono hle) ih

end

/-! ## States -/

namespace State.Padded

variable {s s' : State}

theorem withStore (h : s.Padded W s') (hle : W.Le W') {t t' : Store} (ht : t.Padded W' t') :
    ({ s with store := t } : State).Padded W' { s' with store := t' } :=
  ⟨ht, h.env.mono hle, h.depth, h.unresolved, h.unresolved', h.output, h.time⟩

theorem define (h : s.Padded W s') (ha : s.env.Anchored W s'.env) (name : Token) {v v' : Value}
    (hv : v.Padded W v') : (s.define name v).Padded W (s'.define name v') :=
  h.withStore (.refl W) (h.store.setVar ha.frame hv name.lexeme)

/-- In the environment that was around. -/
theorem leave (h : s.Padded W s') (he : env.Padded W env') :
    ({ s with env := env } : State).Padded W { s' with env := env' } :=
  ⟨h.store, he, h.depth, h.unresolved, h.unresolved', h.output, h.time⟩

/-- In new frames, which stand for each other. -/
theorem enter (h : s.Padded W s') (he : env.Padded W env') {vars vars' : Bindings Value}
    (hv : vars.Padded W vars') :
    ∃ W', W.Le W' ∧ (s.enter env vars).env.Anchored W' (s'.enter env' vars').env ∧
      (s.enter env vars).Padded W' (s'.enter env' vars') := by
  obtain ⟨W', hle, ha, hstore⟩ := h.store.childEnv he hv
  exact ⟨W', hle, ha, hstore, ha.padded, h.depth, h.unresolved, h.unresolved', h.output, h.time⟩

/-- In a new frame of the second store, which is a spare one. -/
theorem enterSpare (h : s.Padded W s') :
    s.Padded (W.addSpare s'.store.frames.size) (s'.enter s'.env .empty) :=
  ⟨h.store.addSpare, .spare (List.mem_cons_self ..) (h.env.mono (W.le_addSpare _)), h.depth,
    h.unresolved, h.unresolved', h.output, h.time⟩

theorem withDepth (h : s.Padded W s') (f : Nat → Nat) :
    ({ s with depth := f s.depth } : State).Padded W { s' with depth := f s'.depth } :=
  ⟨h.store, h.env, congrArg f h.depth, h.unresolved, h.unresolved', h.output, h.time⟩

theorem lookUp (h : s.Padded W s') (id : NodeId) (name : Token) :
    (∃ e, s.lookUp id name = .error e ∧ s'.lookUp id name = .error e) ∨
      ∃ v v', s.lookUp id name = .ok v ∧ s'.lookUp id name = .ok v' ∧ v.Padded W v' := by
  unfold State.lookUp
  rw [h.unresolved id, h.unresolved' id]
  dsimp only
  obtain ⟨hv, hv'⟩ | ⟨v, v', hv, hv', hp⟩ := h.store.get? h.env name.lexeme
  · rw [hv, hv']
    exact .inl ⟨_, rfl, rfl⟩
  · rw [hv, hv']
    exact .inr ⟨v, v', rfl, rfl, hp⟩

theorem holder? (h : s.Padded W s') (id : NodeId) (name : String) :
    s.holder? id name = none ∧ s'.holder? id name = none ∨
      ∃ f g, s.holder? id name = some f ∧ s'.holder? id name = some g ∧ W.At f g := by
  unfold State.holder?
  rw [h.unresolved id, h.unresolved' id]
  exact h.store.holder? h.env name

end State.Padded

namespace Machine.PaddedOn

variable {s s' : State} {k k' : Stack .value}

theorem intro {m m' : Machine} (h : Machine.Padded W B m m') : Machine.PaddedOn W B m m' :=
  ⟨W, .refl W, h⟩

theorem mono {m m' : Machine} (hle : W.Le W') (h : Machine.PaddedOn W' B m m') :
    Machine.PaddedOn W B m m' := by
  obtain ⟨W'', hle', hm⟩ := h
  exact ⟨W'', hle.trans hle', hm⟩

/-! ## Calls -/

theorem ofPlain (h : s.Padded W s') {r : Except RuntimeError Value} (hr : ∀ x, r = .ok x → x.Plain)
    (hk : k.Padded W B s.env s'.env k') :
    PaddedOn W B ⟨s, .ofResult r k⟩ ⟨s', .ofResult r k'⟩ := by
  cases r with
  | ok x => exact intro ⟨h, .value (.of_plain (hr x rfl)) hk⟩
  | error e => exact intro ⟨h, .raise e hk⟩

theorem lookUp (h : s.Padded W s') (id : NodeId) (name : Token)
    (hk : k.Padded W B s.env s'.env k') :
    PaddedOn W B ⟨s, .ofResult (s.lookUp id name) k⟩ ⟨s', .ofResult (s'.lookUp id name) k'⟩ := by
  obtain ⟨e, he, he'⟩ | ⟨v, v', hv, hv', hp⟩ := h.lookUp id name
  · rw [he, he']
    exact intro ⟨h, .raise e hk⟩
  · rw [hv, hv']
    exact intro ⟨h, .value hp hk⟩

theorem assign (h : s.Padded W s') (id : NodeId) (name : Token) {v v' : Value}
    (hv : v.Padded W v') (hk : k.Padded W B s.env s'.env k') :
    PaddedOn W B (assign s id name v k) (assign s' id name v' k') := by
  unfold Machine.assign
  obtain ⟨hf, hg⟩ | ⟨f, g, hf, hg, hat⟩ := h.holder? id name.lexeme
  · rw [hf, hg]
    exact intro ⟨h, .raise _ hk⟩
  · rw [hf, hg]
    exact intro ⟨h.withStore (.refl W) (h.store.setVar hat hv _), .value hv hk⟩

theorem property (h : s.Padded W s') {o o' : Instance} (ho : o.Padded W o') (name : Token)
    (hk : k.Padded W B s.env s'.env k') :
    PaddedOn W B (property s o name k) (property s' o' name k') := by
  unfold Machine.property
  rw [ho.id]
  obtain ⟨hv, hv'⟩ | ⟨v, v', hv, hv', hp⟩ := (h.store.fields o.id).get? name.lexeme
  · rw [hv, hv']
    obtain ⟨hf, hf'⟩ | ⟨f, f', hf, hf', hp⟩ := ho.cls.methods.get? name.lexeme
    · rw [hf, hf']
      exact intro ⟨h, .raise _ hk⟩
    · rw [hf, hf']
      obtain ⟨W', hle, hbound, hstore⟩ := h.store.bind hp ho
      exact ⟨W', hle, h.withStore hle hstore, .value (.closure hbound) (hk.mono hle)⟩
  · rw [hv, hv']
    exact intro ⟨h, .value hp hk⟩

theorem enterBody (h : s.Padded W s') {f f' : Closure} (hf : f.Padded W f')
    {args args' : List Value}
    (ha : List.Forall₂ (Value.Padded W) args args') (hk : k.Padded W B s.env s'.env k') :
    PaddedOn W B (enterBody s f args k) (enterBody s' f' args' k') := by
  have hvars := Bindings.Like.ofList (f.decl.params.map Token.lexeme) ha
  obtain ⟨W', hle, hanchored, hstate⟩ := h.enter hf.env.padded hvars
  unfold Machine.enterBody
  rw [hf.decl]
  refine ⟨W', hle, hstate.withDepth (fun _ => s.depth + 1) |> fun hd => ?_, ?_⟩
  · rw [h.depth]
    exact hd
  · exact .flow .normal (.block _ hanchored (h.env.mono hle)
      (.push (.body (hf.mono hle)) (hk.mono hle)))

theorem callNative (h : s.Padded W s') (f : Native) (args args' : List Value)
    (hk : k.Padded W B s.env s'.env k') :
    PaddedOn W B (callNative s f args k) (callNative s' f args' k') := by
  unfold Machine.callNative
  split
  rw [h.time]
  exact intro ⟨⟨h.store, h.env, h.depth, h.unresolved, h.unresolved', h.output, rfl⟩,
    .value (.number _) hk⟩

theorem instantiate (h : s.Padded W s') {c c' : Class} (hc : c.Padded W c')
    {args args' : List Value}
    (ha : List.Forall₂ (Value.Padded W) args args') (hk : k.Padded W B s.env s'.env k') :
    PaddedOn W B (instantiate s c args k) (instantiate s' c' args' k') := by
  have hmade := h.withStore (.refl W) h.store.addObject
  have ho : Instance.Padded W ⟨s.store.objects.size, c⟩ ⟨s'.store.objects.size, c'⟩ :=
    ⟨h.store.objects, hc⟩
  unfold Machine.instantiate
  obtain ⟨hi, hi'⟩ | ⟨f, f', hi, hi', hf⟩ := hc.init?
  · rw [hi, hi']
    exact intro ⟨hmade, .value (.object ho) hk⟩
  · rw [hi, hi']
    obtain ⟨W', hle, hbound, hstore⟩ := hmade.store.bind hf ho
    exact mono hle (enterBody (hmade.withStore hle hstore) hbound
      (ha.imp fun _ _ hv => hv.mono hle) (.push (.construct (ho.mono hle)) (hk.mono hle)))

theorem call (h : s.Padded W s') {callee callee' : Value} (hc : callee.Padded W callee')
    (paren : Token) {args args' : List Value} (ha : List.Forall₂ (Value.Padded W) args args')
    (hk : k.Padded W B s.env s'.env k') :
    PaddedOn W B (call s callee paren args k) (call s' callee' paren args' k') := by
  have raised (fault : RuntimeFault) :
      PaddedOn W B ⟨s, .raise ⟨paren, fault⟩ k⟩ ⟨s', .raise ⟨paren, fault⟩ k'⟩ :=
    intro ⟨h, .raise _ hk⟩
  have hlength : args'.length = args.length := ha.length_eq.symm
  unfold Machine.call
  cases hc with
  | native f =>
    rw [hlength, h.depth]
    dsimp only
    split
    · exact raised _
    split
    · exact raised _
    · exact callNative h f args args' hk
  | @closure f f' hf =>
    have harity : (Callable.closure f').arity = (Callable.closure f).arity :=
      congrArg FunctionDecl.arity hf.decl
    rw [hlength, h.depth]
    dsimp only
    rw [harity]
    split
    · exact raised _
    split
    · exact raised _
    · exact enterBody h hf ha hk
  | @«class» c c' hc =>
    have harity : (Callable.class c').arity = (Callable.class c).arity := hc.arity
    rw [hlength, h.depth]
    dsimp only
    rw [harity]
    split
    · exact raised _
    split
    · exact raised _
    · exact instantiate h hc ha hk
  | _ => exact raised _

theorem nextArgument (h : s.Padded W s') {callee callee' : Value} (hc : callee.Padded W callee')
    (paren : Token) {done done' : List Value} (hd : List.Forall₂ (Value.Padded W) done done')
    (rest : List Expr) (hk : k.Padded W B s.env s'.env k') :
    PaddedOn W B (nextArgument s callee paren done rest k)
      (nextArgument s' callee' paren done' rest k') := by
  cases rest with
  | nil => exact call h hc paren (List.rel_reverse hd) hk
  | cons e rest => exact intro ⟨h, .eval e (.push (.argument paren rest hc hd) hk)⟩

/-! ## Steps -/

theorem eval (h : s.Padded W s') (e : Expr) (hk : k.Padded W B s.env s'.env k') :
    PaddedOn W B (eval s k e) (eval s' k' e) := by
  cases e with
  | literal l => exact intro ⟨h, .value (.of_plain l.plain) hk⟩
  | grouping e => exact intro ⟨h, .eval e hk⟩
  | unary op e => exact intro ⟨h, .eval e (.push (.unary op) hk)⟩
  | binary left op right => exact intro ⟨h, .eval left (.push (.binaryLeft op right) hk)⟩
  | logical left op right => exact intro ⟨h, .eval left (.push (.logical op right) hk)⟩
  | «variable» id name | this id name => exact lookUp h id name hk
  | assign id name e => exact intro ⟨h, .eval e (.push (.assign id name) hk)⟩
  | call callee paren args => exact intro ⟨h, .eval callee (.push (.callee paren args) hk)⟩
  | get object name => exact intro ⟨h, .eval object (.push (.property name) hk)⟩
  | set object name e => exact intro ⟨h, .eval object (.push (.fieldObject name e) hk)⟩

theorem exec (h : s.Padded W s') {stmt : Stmt} (hs : stmt.Fits W s.env s'.env)
    {k k' : Stack .flow} (hk : k.Padded W B s.env s'.env k') :
    PaddedOn W B (exec s k stmt) (exec s' k' stmt) := by
  cases stmt with
  | expression e => exact intro ⟨h, .eval e (.push .discard hk)⟩
  | print e => exact intro ⟨h, .eval e (.push .print hk)⟩
  | var name init =>
    have ha : s.env.Anchored W s'.env := hs.resolve_right (by simp [Stmt.Undeclaring])
    cases init with
    | none => exact intro ⟨h.define ha name .nil, .flow .normal hk⟩
    | some e => exact intro ⟨h, .eval e (.push (.define name ha) hk)⟩
  | block body =>
    obtain ⟨W', hle, ha, hstate⟩ := h.enter h.env .empty
    exact ⟨W', hle, hstate, .flow .normal (.block body ha (h.env.mono hle) (hk.mono hle))⟩
  | cond test thenPart elsePart =>
    refine intro ⟨h, .eval test (.push (.branch ?_ ?_) hk)⟩
    · refine hs.imp_right fun hu => ?_
      cases elsePart with
      | none => simpa [Stmt.Undeclaring] using hu
      | some elsePart => exact (by simpa [Stmt.Undeclaring] using hu : _ ∧ _).1
    · rintro stmt rfl
      exact hs.imp_right fun hu => (by simpa [Stmt.Undeclaring] using hu : _ ∧ _).2
  | «while» test body =>
    exact intro ⟨h, .eval test (.push (.loopTest test (hs.imp_right fun hu => by
      simpa [Stmt.Undeclaring] using hu)) hk)⟩
  | function decl =>
    have ha : s.env.Anchored W s'.env := hs.resolve_right (by simp [Stmt.Undeclaring])
    obtain ⟨hf, hstore⟩ := h.store.closure ha decl false
    have hmade := h.withStore (.refl W) hstore
    exact intro ⟨hmade.define ha decl.name (.closure hf), .flow .normal hk⟩
  | ret keyword value =>
    cases value with
    | none => exact intro ⟨h, .flow (.returned .nil) hk⟩
    | some e => exact intro ⟨h, .eval e (.push .ret hk)⟩
  | «class» name decls =>
    have ha : s.env.Anchored W s'.env := hs.resolve_right (by simp [Stmt.Undeclaring])
    obtain ⟨hmethods, hstore⟩ := h.store.methods ha decls .empty
    have hmade := h.withStore (.refl W) hstore.freshStamp
    exact intro ⟨hmade.define ha name (.class ⟨hstore.stamp, rfl, hmethods⟩), .flow .normal hk⟩

theorem serveValue (h : s.Padded W s') {v v' : Value} (hv : v.Padded W v') {b : Yield}
    {w w' : Waiting .value b} (hw : w.Padded W s.env s'.env w') {k k' : Stack b}
    (hk : k.Padded W B s.env s'.env k') :
    PaddedOn W B (serveValue s v w k) (serveValue s' v' w' k') := by
  cases hw with
  | unary op =>
    rw [Machine.serveValue, Machine.serveValue, hv.unaryOperation op]
    exact ofPlain h (fun _ hx => plain_unaryOperation hx) hk
  | binaryLeft op right => exact intro ⟨h, .eval right (.push (.binaryRight op hv) hk)⟩
  | binaryRight op hl =>
    rw [Machine.serveValue, Machine.serveValue, hl.binaryOperation hv op]
    exact ofPlain h (fun _ hx => plain_binaryOperation hx) hk
  | logical op right =>
    rw [Machine.serveValue, Machine.serveValue, hv.decides op]
    split
    · exact intro ⟨h, .value hv hk⟩
    · exact intro ⟨h, .eval right hk⟩
  | assign id name => exact assign h id name hv hk
  | callee paren args => exact nextArgument h hv paren .nil args hk
  | argument paren rest hc hd => exact nextArgument h hc paren (.cons hv hd) rest hk
  | property name =>
    cases hv with
    | object ho => exact property h ho name hk
    | _ => exact intro ⟨h, .raise _ hk⟩
  | fieldObject name e =>
    cases hv with
    | object ho => exact intro ⟨h, .eval e (.push (.fieldValue name ho) hk)⟩
    | _ => exact intro ⟨h, .raise _ hk⟩
  | fieldValue name ho =>
    rw [Machine.serveValue, Machine.serveValue, ho.id]
    exact intro ⟨h.withStore (.refl W) (h.store.setField _ hv _), .value hv hk⟩
  | construct ho => exact intro ⟨h, .value (.object ho) hk⟩
  | discard => exact intro ⟨h, .flow .normal hk⟩
  | print =>
    have houtput : s'.output.push v'.text = s.output.push v.text := by rw [h.output, hv.text]
    exact intro ⟨⟨h.store, h.env, h.depth, h.unresolved, h.unresolved', houtput, h.time⟩,
      .flow .normal hk⟩
  | define name ha => exact intro ⟨h.define ha name hv, .flow .normal hk⟩
  | @branch thenPart elsePart hthen helse =>
    cases elsePart with
    | none =>
      rw [Machine.serveValue, Machine.serveValue, hv.isTruthy]
      split
      · exact intro ⟨h, .exec hthen hk⟩
      · exact intro ⟨h, .flow .normal hk⟩
    | some elsePart =>
      rw [Machine.serveValue, Machine.serveValue, hv.isTruthy]
      split
      · exact intro ⟨h, .exec hthen hk⟩
      · exact intro ⟨h, .exec (helse _ rfl) hk⟩
  | loopTest test hb =>
    rw [Machine.serveValue, Machine.serveValue, hv.isTruthy]
    split
    · exact intro ⟨h, .exec hb (.push (.loopBody test hb) hk)⟩
    · exact intro ⟨h, .flow .normal hk⟩
  | ret => exact intro ⟨h, .flow (.returned hv) hk⟩

/-- What a function yields at its end. An initializer finds its receiver in both stores. -/
theorem result (h : s.Padded W s') {f f' : Closure} (hf : f.Padded W f') {ended ended' : Flow}
    (he : ended.Padded W ended') (hk : k.Padded W B s.env s'.env k') :
    PaddedOn W B ⟨s, .ofResult (f.result s.store ended) k⟩
      ⟨s', .ofResult (f'.result s'.store ended') k'⟩ := by
  unfold Closure.result
  rw [hf.isInit, hf.decl]
  split
  · obtain ⟨hv, hv'⟩ | ⟨v, v', hv, hv', hp⟩ := h.store.getAt? hf.env receiverName
    · rw [hv, hv']
      exact intro ⟨h, .raise _ hk⟩
    · rw [hv, hv']
      exact intro ⟨h, .value hp hk⟩
  · cases he with
    | normal => exact intro ⟨h, .value .nil hk⟩
    | returned hv => exact intro ⟨h, .value hv hk⟩

theorem serveFlow (h : s.Padded W s') {f f' : Flow} (hf : f.Padded W f') {b : Yield}
    {w w' : Waiting .flow b} (hw : w.Padded W s.env s'.env w') {k k' : Stack b}
    (hk : k.Padded W B s.env s'.env k') :
    PaddedOn W B (serveFlow s f w k) (serveFlow s' f' w' k') := by
  cases hw with
  | loopBody test hb =>
    cases hf with
    | normal => exact intro ⟨h, .eval test (.push (.loopTest test hb) hk)⟩
    | returned hv => exact intro ⟨h, .flow (.returned hv) hk⟩
  | body hg => exact result (h.withDepth (· - 1)) hg hf hk

/-- The end of a block leads back to the environments around it. -/
theorem serveBlock (h : s.Padded W s') (ha : s.env.Anchored W s'.env) {f f' : Flow}
    (hf : f.Padded W f') (rest : List Stmt) {around around' : Env}
    (haround : around.Padded W around') {k k' : Stack .flow}
    (hk : k.Padded W B around around' k') :
    PaddedOn W B (Machine.serveFlow s f (.block rest around) k)
      (Machine.serveFlow s' f' (.block rest around') k') := by
  cases hf with
  | normal =>
    cases rest with
    | nil => exact intro ⟨h.leave haround, .flow .normal hk⟩
    | cons next rest => exact intro ⟨h, .exec (.inl ha) (.block rest ha haround hk)⟩
  | returned hv => exact intro ⟨h.leave haround, .flow (.returned hv) hk⟩

theorem unwind (h : s.Padded W s') (e : RuntimeError) {a b : Yield} {w w' : Waiting a b}
    (hw : w.Padded W s.env s'.env w') {k k' : Stack b} (hk : k.Padded W B s.env s'.env k') :
    PaddedOn W B ⟨unwind s w, .raise e k⟩ ⟨unwind s' w', .raise e k'⟩ := by
  cases hw with
  | body => exact intro ⟨h.withDepth (· - 1), .raise e hk⟩
  | _ => exact intro ⟨h, .raise e hk⟩

end Machine.PaddedOn

/-- A machine that has something left to do above what lies below does it in step with the other
one. -/
theorem Machine.Padded.step {m m' : Machine} (h : Machine.Padded W B m m')
    (hm : m.control.outcome? = none) : Machine.PaddedOn W B m.step m'.step := by
  obtain ⟨s, c⟩ := m
  obtain ⟨s', c'⟩ := m'
  obtain ⟨hs, hc⟩ := h
  cases hc with
  | eval e hk => exact .eval hs e hk
  | exec hstmt hk => exact .exec hs hstmt hk
  | value hv hk =>
    cases hk with
    | bottom => cases hm
    | push hw hk => exact .serveValue hs hv hw hk
  | flow hf hk =>
    cases hk with
    | bottom => cases hm
    | push hw hk => exact .serveFlow hs hf hw hk
    | block rest ha haround hk => exact .serveBlock hs ha hf rest haround hk
  | raise e hk =>
    cases hk with
    | bottom => cases hm
    | push hw hk => exact .unwind hs e hw hk
    | block rest ha haround hk => exact .intro ⟨hs.leave haround, .raise e hk⟩

/-- A machine that has something left to do is matched by one that has. -/
theorem Machine.Padded.outcome? {m m' : Machine} (h : Machine.Padded W B m m')
    (hm : m.control.outcome? = none) : m'.control.outcome? = none := by
  obtain ⟨s, c⟩ := m
  obtain ⟨s', c'⟩ := m'
  obtain ⟨-, hc⟩ := h
  cases hc with
  | eval | exec => rfl
  | value _ hk | flow _ hk | raise _ hk =>
    cases hk with
    | bottom => cases hm
    | _ => rfl

end Lox
