/-
Steps side by side. Two machines that are alike are alike after a step of each
(`Alike.step`), and so after any number of steps, as long as the second one has
nothing to do behind its program, or the first one has not come to the end of
its own (`Alike.run`).
-/
import Lox.Proofs.Machine.Like
import Lox.Proofs.Machine.Oblivious

namespace Lox

variable {C : Comparison}

/-- States with like stores, in the same environment, at the same time and depth. -/
structure State.Like (C : Comparison) (s s' : State) : Prop where
  store : s.store.Like C s'.store
  env : s'.env = s.env
  within : s.env.Within C
  depth : s'.depth = s.depth
  distances : ∀ id id', C.node id id' → s'.distances[id']? = s.distances[id]?
  output : s'.output = C.printed ++ s.output
  time : s'.time = s.time

/-- Statements that ended in like ways. -/
inductive Flow.Like (C : Comparison) : Flow → Flow → Prop
  | normal : Like C .normal .normal
  | returned {v v' : Value} : v.Like C v' → Like C (.returned v) (.returned v')

/-- The same computation that waits, with like trees and values. -/
inductive Waiting.Like (C : Comparison) : {a b : Yield} → Waiting a b → Waiting a b → Prop
  | unary {op op' : Token} : op.Like C.toLikeness op' → Like C (.unary op) (.unary op')
  | binaryLeft {op op' : Token} {right right' : Expr} : op.Like C.toLikeness op' →
    right.Like C.toLikeness right' → Like C (.binaryLeft op right) (.binaryLeft op' right')
  | binaryRight {left left' : Value} {op op' : Token} : left.Like C left' →
    op.Like C.toLikeness op' → Like C (.binaryRight left op) (.binaryRight left' op')
  | logical {op op' : Token} {right right' : Expr} : op.Like C.toLikeness op' →
    right.Like C.toLikeness right' → Like C (.logical op right) (.logical op' right')
  | assign {id id' : NodeId} {name name' : Token} : C.node id id' → name.Like C.toLikeness name' →
    Like C (.assign id name) (.assign id' name')
  | callee {paren paren' : Token} {args args' : List Expr} : paren.Like C.toLikeness paren' →
    List.Forall₂ (Expr.Like C.toLikeness) args args' →
    Like C (.callee paren args) (.callee paren' args')
  | argument {callee callee' : Value} {paren paren' : Token} {done done' : List Value}
    {rest rest' : List Expr} : callee.Like C callee' → paren.Like C.toLikeness paren' →
    List.Forall₂ (Value.Like C) done done' →
    List.Forall₂ (Expr.Like C.toLikeness) rest rest' →
    Like C (.argument callee paren done rest) (.argument callee' paren' done' rest')
  | property {name name' : Token} : name.Like C.toLikeness name' →
    Like C (.property name) (.property name')
  | fieldObject {name name' : Token} {e e' : Expr} : name.Like C.toLikeness name' →
    e.Like C.toLikeness e' → Like C (.fieldObject name e) (.fieldObject name' e')
  | fieldValue {o o' : Instance} {name name' : Token} : o.Like C o' →
    name.Like C.toLikeness name' → Like C (.fieldValue o name) (.fieldValue o' name')
  | construct {o o' : Instance} : o.Like C o' → Like C (.construct o) (.construct o')
  | discard : Like C .discard .discard
  | print : Like C .print .print
  | define {name name' : Token} : name.Like C.toLikeness name' →
    Like C (.define name) (.define name')
  | branch {thenPart thenPart' : Stmt} {elsePart elsePart' : Option Stmt} :
    thenPart.Like C.toLikeness thenPart' →
    Option.Rel (Stmt.Like C.toLikeness) elsePart elsePart' →
    Like C (.branch thenPart elsePart) (.branch thenPart' elsePart')
  | loopTest {test test' : Expr} {body body' : Stmt} : test.Like C.toLikeness test' →
    body.Like C.toLikeness body' → Like C (.loopTest test body) (.loopTest test' body')
  | loopBody {test test' : Expr} {body body' : Stmt} : test.Like C.toLikeness test' →
    body.Like C.toLikeness body' → Like C (.loopBody test body) (.loopBody test' body')
  | ret : Like C .ret .ret
  | block {rest rest' : List Stmt} {around : Env} :
    List.Forall₂ (Stmt.Like C.toLikeness) rest rest' → around.Within C →
    Like C (.block rest around) (.block rest' around)
  | body {f f' : Closure} : f.Like C f' → Like C (.body f) (.body f')
  /-- The second program goes on behind the first one. -/
  | program {rest rest' : List Stmt} : List.Forall₂ (Stmt.Like C.toLikeness) rest rest' →
    Like C (.program rest) (.program (rest' ++ C.more))

/-- Stacks of the same height that wait for like things. -/
inductive Stack.Like (C : Comparison) : {a : Yield} → Stack a → Stack a → Prop
  | bottom {a : Yield} : Like C (.bottom : Stack a) .bottom
  | push {a b : Yield} {w w' : Waiting a b} {k k' : Stack b} : w.Like C w' → Like C k k' →
    Like C (.push w k) (.push w' k')

/-- Machines that are about to do the same. -/
inductive Control.Like (C : Comparison) : Control → Control → Prop
  | eval {e e' : Expr} {k k' : Stack .value} : e.Like C.toLikeness e' → k.Like C k' →
    Like C (.eval e k) (.eval e' k')
  | exec {s s' : Stmt} {k k' : Stack .flow} : s.Like C.toLikeness s' → k.Like C k' →
    Like C (.exec s k) (.exec s' k')
  | value {v v' : Value} {k k' : Stack .value} : v.Like C v' → k.Like C k' →
    Like C (.value v k) (.value v' k')
  | flow {f f' : Flow} {k k' : Stack .flow} : f.Like C f' → k.Like C k' →
    Like C (.flow f k) (.flow f' k')
  | raise {a : Yield} {e e' : RuntimeError} {k k' : Stack a} : e.Like C.toLikeness e' →
    k.Like C k' → Like C (.raise e k) (.raise e' k')

/-- Whether the machine has come to the end of a program. -/
def Control.atEnd : Control → Bool
  | .flow _ (.push (.program []) _) => true
  | _ => false

/-- Machines in like states that are about to do the same. -/
structure Machine.Alike (C : Comparison) (m m' : Machine) : Prop where
  state : m.state.Like C m'.state
  control : m.control.Like C m'.control

/-! ## States -/

namespace State.Like

variable {s s' : State}

theorem withStore (h : s.Like C s') {t t' : Store} (ht : t.Like C t') :
    ({ s with store := t } : State).Like C { s' with store := t' } :=
  ⟨ht, h.env, h.within, h.depth, h.distances, h.output, h.time⟩

theorem define (h : s.Like C s') {name name' : Token} (hn : name.Like C.toLikeness name')
    {v v' : Value} (hv : v.Like C v') : (s.define name v).Like C (s'.define name' v') := by
  have hdefine : s'.define name' v' =
      { s' with store := s'.store.setVar s.env.frame name.lexeme v' } := by
    rw [← h.env, ← hn.lexeme]
    rfl
  rw [hdefine]
  exact h.withStore (h.store.setVar (h.within _ (List.mem_cons_self ..)) hv _)

/-- In the environment that was around. -/
theorem leave (h : s.Like C s') {around : Env} (ha : around.Within C) :
    ({ s with env := around } : State).Like C { s' with env := around } :=
  ⟨h.store, rfl, ha, h.depth, h.distances, h.output, h.time⟩

theorem enter (h : s.Like C s') {env : Env} (hw : env.Within C) {vars vars' : Bindings Value}
    (hv : vars.Like (Value.Like C) vars') : (s.enter env vars).Like C (s'.enter env vars') := by
  obtain ⟨henv, hwithin, hstore⟩ := h.store.childEnv hw hv
  exact ⟨hstore, henv, hwithin, h.depth, h.distances, h.output, h.time⟩

theorem withDepth (h : s.Like C s') (f : Nat → Nat) :
    ({ s with depth := f s.depth } : State).Like C { s' with depth := f s'.depth } :=
  ⟨h.store, h.env, h.within, congrArg f h.depth, h.distances, h.output, h.time⟩

/-- A name that is not found is reported with its token. -/
theorem found {name name' : Token} (hn : name.Like C.toLikeness name') {x x' : Option Value} :
    (x = none ∧ x' = none ∨ ∃ v v', x = some v ∧ x' = some v' ∧ v.Like C v') →
    ResultLike C (match x with | some v => .ok v | none => .error (undefinedVariable name))
      (match x' with | some v => .ok v | none => .error (undefinedVariable name')) := by
  rintro (⟨rfl, rfl⟩ | ⟨v, v', rfl, rfl, hv⟩)
  · exact .error ⟨hn, by rw [undefinedVariable, undefinedVariable, hn.lexeme]⟩
  · exact .ok hv

theorem lookUp (h : s.Like C s') {id id' : NodeId} (hid : C.node id id') {name name' : Token}
    (hn : name.Like C.toLikeness name') : ResultLike C (s.lookUp id name) (s'.lookUp id' name') := by
  unfold State.lookUp
  rw [h.distances id id' hid, h.env, hn.lexeme]
  cases s.distances[id]? with
  | none => exact found hn (h.store.get? h.within _)
  | some d => exact found hn (h.store.getAt? h.within d _)

theorem holder? (h : s.Like C s') {id id' : NodeId} (hid : C.node id id') (name : String) :
    s'.holder? id' name = s.holder? id name ∧
      ∀ f, s.holder? id name = some f → C.cell (.frame f) := by
  unfold State.holder?
  rw [h.distances id id' hid, h.env]
  cases s.distances[id]? with
  | none => exact ⟨h.store.holder? h.within name, fun f => (Store.Like.holder_within h.within).1⟩
  | some d =>
    exact ⟨h.store.holderAt? h.within d name, fun f => (Store.Like.holder_within h.within).2 d⟩

end State.Like

/-- What a function yields at its end. An initializer finds its receiver in both stores. -/
theorem Closure.Like.result {f f' : Closure} (hf : f.Like C f') {s s' : Store} (h : s.Like C s')
    {ended ended' : Flow} (he : ended.Like C ended') :
    ResultLike C (f.result s ended) (f'.result s' ended') := by
  unfold Closure.result
  rw [hf.isInit, hf.env]
  split
  · obtain ⟨hv, hv'⟩ | ⟨v, v', hv, hv', hlike⟩ := h.getAt? hf.within 0 receiverName
    · rw [hv, hv']
      exact .error ⟨⟨rfl, rfl, C.line_receiver hf.decl.name.line⟩, rfl⟩
    · rw [hv, hv']
      exact .ok hlike
  · cases he with
    | normal => exact .ok .nil
    | returned hv => exact .ok hv

namespace Machine.Alike

variable {s s' : State}

/-! ## Calls -/

theorem ofResult (h : s.Like C s') {r r' : Except RuntimeError Value} (hr : ResultLike C r r')
    {k k' : Stack .value} (hk : k.Like C k') :
    Alike C ⟨s, .ofResult r k⟩ ⟨s', .ofResult r' k'⟩ := by
  cases hr with
  | ok hv => exact ⟨h, .value hv hk⟩
  | error he => exact ⟨h, .raise he hk⟩

theorem assign (h : s.Like C s') {id id' : NodeId} (hid : C.node id id') {name name' : Token}
    (hn : name.Like C.toLikeness name') {v v' : Value} (hv : v.Like C v') {k k' : Stack .value}
    (hk : k.Like C k') : Alike C (assign s id name v k) (assign s' id' name' v' k') := by
  obtain ⟨hholder, hcell⟩ := h.holder? hid name.lexeme
  unfold Machine.assign
  rw [hn.lexeme, hholder]
  cases hf : s.holder? id name.lexeme with
  | none => exact ⟨h, .raise ⟨hn, by rw [undefinedVariable, undefinedVariable, hn.lexeme]⟩ hk⟩
  | some f => exact ⟨h.withStore (h.store.setVar (hcell f hf) hv _), .value hv hk⟩

theorem property (h : s.Like C s') {o o' : Instance} (ho : o.Like C o') {name name' : Token}
    (hn : name.Like C.toLikeness name') {k k' : Stack .value} (hk : k.Like C k') :
    Alike C (property s o name k) (property s' o' name' k') := by
  unfold Machine.property
  rw [hn.lexeme, ho.id]
  obtain ⟨hv, hv'⟩ | ⟨v, v', hv, hv', hlike⟩ :=
    (h.store.compared (.object o.id) ho.within).get? name.lexeme
  · rw [show (s.store.fields o.id).get? name.lexeme = none from hv,
      show (s'.store.fields o.id).get? name.lexeme = none from hv']
    obtain ⟨hf, hf'⟩ | ⟨f, f', hf, hf', hlike⟩ := ho.cls.methods.get? name.lexeme
    · rw [hf, hf']
      exact ⟨h, .raise ⟨hn, rfl⟩ hk⟩
    · rw [hf, hf']
      obtain ⟨hbound, hstore⟩ := h.store.bind hlike ho
      exact ⟨h.withStore hstore, .value (.closure hbound) hk⟩
  · rw [show (s.store.fields o.id).get? name.lexeme = some v from hv,
      show (s'.store.fields o.id).get? name.lexeme = some v' from hv']
    exact ⟨h, .value hlike hk⟩

/-- The parameters have the same names, so the new frames hold the arguments under the same names. -/
theorem params_map {ts ts' : List Token} (h : List.Forall₂ (Token.Like C.toLikeness) ts ts') :
    ts'.map Token.lexeme = ts.map Token.lexeme := by
  induction h with
  | nil => rfl
  | cons ht _ ih => rw [List.map_cons, List.map_cons, ht.lexeme, ih]

theorem enterBody (h : s.Like C s') {f f' : Closure} (hf : f.Like C f') {args args' : List Value}
    (ha : List.Forall₂ (Value.Like C) args args') {k k' : Stack .value} (hk : k.Like C k') :
    Alike C (enterBody s f args k) (enterBody s' f' args' k') := by
  have hvars := Bindings.Like.ofList (f.decl.params.map Token.lexeme) ha
  have henter := (h.enter hf.within hvars).withDepth fun _ => s.depth + 1
  unfold Machine.enterBody
  rw [params_map hf.decl.params, hf.env, h.env, h.depth]
  exact ⟨henter, .flow .normal (.push (.block hf.decl.body h.within) (.push (.body hf) hk))⟩

theorem callNative (h : s.Like C s') (f : Native) (args args' : List Value)
    {k k' : Stack .value} (hk : k.Like C k') :
    Alike C (callNative s f args k) (callNative s' f args' k') := by
  unfold Machine.callNative
  split
  rw [h.time]
  exact ⟨⟨h.store, h.env, h.within, h.depth, h.distances, h.output, rfl⟩, .value (.number _) hk⟩

theorem instantiate (h : s.Like C s') {c c' : Class} (hc : c.Like C c') {args args' : List Value}
    (ha : List.Forall₂ (Value.Like C) args args') {k k' : Stack .value} (hk : k.Like C k') :
    Alike C (instantiate s c args k) (instantiate s' c' args' k') := by
  have hmade := h.withStore h.store.addObject
  have ho : Instance.Like C ⟨s.store.objects.size, c⟩ ⟨s'.store.objects.size, c'⟩ :=
    ⟨h.store.objects, hc, h.store.next_object⟩
  unfold Machine.instantiate
  obtain ⟨hi, hi'⟩ | ⟨f, f', hi, hi', hf⟩ := hc.init?
  · rw [hi, hi']
    exact ⟨hmade, .value (.object ho) hk⟩
  · rw [hi, hi']
    obtain ⟨hbound, hstore⟩ := hmade.store.bind hf ho
    exact .enterBody (hmade.withStore hstore) hbound ha (.push (.construct ho) hk)

theorem call (h : s.Like C s') {callee callee' : Value} (hc : callee.Like C callee')
    {paren paren' : Token} (hp : paren.Like C.toLikeness paren') {args args' : List Value}
    (ha : List.Forall₂ (Value.Like C) args args') {k k' : Stack .value} (hk : k.Like C k') :
    Alike C (call s callee paren args k) (call s' callee' paren' args' k') := by
  have raised (fault : RuntimeFault) :
      Alike C ⟨s, .raise ⟨paren, fault⟩ k⟩ ⟨s', .raise ⟨paren', fault⟩ k'⟩ :=
    ⟨h, .raise ⟨hp, rfl⟩ hk⟩
  have hlength : args'.length = args.length := ha.length_eq.symm
  unfold Machine.call
  cases hc with
  | native f =>
    rw [hlength, h.depth]
    dsimp only
    split
    · exact raised _
    split
    · exact raised _
    · exact callNative h f args args' hk
  | @closure f f' hf =>
    have harity : (Callable.closure f').arity = (Callable.closure f).arity := hf.decl.arity
    rw [hlength, h.depth]
    dsimp only
    rw [harity]
    split
    · exact raised _
    split
    · exact raised _
    · exact enterBody h hf ha hk
  | @«class» c c' hc =>
    have harity : (Callable.class c').arity = (Callable.class c).arity := hc.arity
    rw [hlength, h.depth]
    dsimp only
    rw [harity]
    split
    · exact raised _
    split
    · exact raised _
    · exact instantiate h hc ha hk
  | _ => exact raised _

theorem nextArgument (h : s.Like C s') {callee callee' : Value} (hc : callee.Like C callee')
    {paren paren' : Token} (hp : paren.Like C.toLikeness paren') {done done' : List Value}
    (hd : List.Forall₂ (Value.Like C) done done') {rest rest' : List Expr}
    (hr : List.Forall₂ (Expr.Like C.toLikeness) rest rest') {k k' : Stack .value}
    (hk : k.Like C k') :
    Alike C (nextArgument s callee paren done rest k)
      (nextArgument s' callee' paren' done' rest' k') := by
  cases hr with
  | nil => exact .call h hc hp (List.rel_reverse hd) hk
  | cons he hr => exact ⟨h, .eval he (.push (.argument hc hp hd hr) hk)⟩

/-! ## Steps and runs -/

theorem eval (h : s.Like C s') {e e' : Expr} (he : e.Like C.toLikeness e') {k k' : Stack .value}
    (hk : k.Like C k') : Alike C (eval s k e) (eval s' k' e') := by
  cases he with
  | literal l => exact ⟨h, .value l.value_like hk⟩
  | grouping he => exact ⟨h, .eval he hk⟩
  | unary hop he => exact ⟨h, .eval he (.push (.unary hop) hk)⟩
  | binary hl hop hr => exact ⟨h, .eval hl (.push (.binaryLeft hop hr) hk)⟩
  | logical hl hop hr => exact ⟨h, .eval hl (.push (.logical hop hr) hk)⟩
  | «variable» hid hn | this hid hn => exact .ofResult h (h.lookUp hid hn) hk
  | assign hid hn he => exact ⟨h, .eval he (.push (.assign hid hn) hk)⟩
  | call hc hp ha => exact ⟨h, .eval hc (.push (.callee hp ha) hk)⟩
  | get ho hn => exact ⟨h, .eval ho (.push (.property hn) hk)⟩
  | set ho hn he => exact ⟨h, .eval ho (.push (.fieldObject hn he) hk)⟩

theorem exec (h : s.Like C s') {stmt stmt' : Stmt} (hs : stmt.Like C.toLikeness stmt')
    {k k' : Stack .flow} (hk : k.Like C k') : Alike C (exec s k stmt) (exec s' k' stmt') := by
  cases hs with
  | expression he => exact ⟨h, .eval he (.push .discard hk)⟩
  | print he => exact ⟨h, .eval he (.push .print hk)⟩
  | var hn hi =>
    cases hi with
    | none => exact ⟨h.define hn .nil, .flow .normal hk⟩
    | some he => exact ⟨h, .eval he (.push (.define hn) hk)⟩
  | block hb =>
    unfold Machine.exec
    rw [h.env]
    exact ⟨h.enter h.within .empty, .flow .normal (.push (.block hb h.within) hk)⟩
  | cond ht hthen helse => exact ⟨h, .eval ht (.push (.branch hthen helse) hk)⟩
  | «while» ht hb => exact ⟨h, .eval ht (.push (.loopTest ht hb) hk)⟩
  | function hd =>
    obtain ⟨hf, hstore⟩ := h.store.closure h.within hd false
    unfold Machine.exec
    rw [h.env]
    exact ⟨(h.withStore hstore).define hd.name (.closure hf), .flow .normal hk⟩
  | ret _ hv =>
    cases hv with
    | none => exact ⟨h, .flow (.returned .nil) hk⟩
    | some he => exact ⟨h, .eval he (.push .ret hk)⟩
  | «class» hn hm =>
    obtain ⟨hmethods, hstore⟩ := h.store.methods h.within hm .empty
    unfold Machine.exec
    rw [h.env]
    exact ⟨(h.withStore hstore.freshStamp).define hn (.class ⟨hstore.stamp, hn.lexeme, hmethods⟩),
      .flow .normal hk⟩

theorem serveValue (h : s.Like C s') {v v' : Value} (hv : v.Like C v') {b : Yield}
    {w w' : Waiting .value b} (hw : w.Like C w') {k k' : Stack b} (hk : k.Like C k') :
    Alike C (serveValue s v w k) (serveValue s' v' w' k') := by
  cases hw with
  | unary hop => exact .ofResult h (unaryOperation_like hop hv) hk
  | binaryLeft hop hr => exact ⟨h, .eval hr (.push (.binaryRight hv hop) hk)⟩
  | binaryRight hl hop => exact .ofResult h (binaryOperation_like hop hl hv) hk
  | logical hop hr =>
    rw [Machine.serveValue, Machine.serveValue, decides_like hop hv]
    split
    · exact ⟨h, .value hv hk⟩
    · exact ⟨h, .eval hr hk⟩
  | assign hid hn => exact .assign h hid hn hv hk
  | callee hp ha => exact .nextArgument h hv hp .nil ha hk
  | argument hc hp hd hr => exact .nextArgument h hc hp (.cons hv hd) hr hk
  | property hn =>
    cases hv with
    | object ho => exact .property h ho hn hk
    | _ => exact ⟨h, .raise ⟨hn, rfl⟩ hk⟩
  | fieldObject hn he =>
    cases hv with
    | object ho => exact ⟨h, .eval he (.push (.fieldValue ho hn) hk)⟩
    | _ => exact ⟨h, .raise ⟨hn, rfl⟩ hk⟩
  | fieldValue ho hn =>
    rw [Machine.serveValue, Machine.serveValue, ho.id, hn.lexeme]
    exact ⟨h.withStore (h.store.setField ho.within hv _), .value hv hk⟩
  | construct ho => exact ⟨h, .value (.object ho) hk⟩
  | discard => exact ⟨h, .flow .normal hk⟩
  | print =>
    refine ⟨⟨h.store, h.env, h.within, h.depth, h.distances, ?_, h.time⟩, .flow .normal hk⟩
    show s'.output.push v'.text = C.printed ++ s.output.push v.text
    rw [h.output, hv.text, Array.append_push]
  | define hn => exact ⟨h.define hn hv, .flow .normal hk⟩
  | branch hthen helse =>
    cases helse with
    | none =>
      rw [Machine.serveValue, Machine.serveValue, hv.isTruthy]
      split
      · exact ⟨h, .exec hthen hk⟩
      · exact ⟨h, .flow .normal hk⟩
    | some helse =>
      rw [Machine.serveValue, Machine.serveValue, hv.isTruthy]
      split
      · exact ⟨h, .exec hthen hk⟩
      · exact ⟨h, .exec helse hk⟩
  | loopTest ht hb =>
    rw [Machine.serveValue, Machine.serveValue, hv.isTruthy]
    split
    · exact ⟨h, .exec hb (.push (.loopBody ht hb) hk)⟩
    · exact ⟨h, .flow .normal hk⟩
  | ret => exact ⟨h, .flow (.returned hv) hk⟩

theorem serveFlow (h : s.Like C s') {f f' : Flow} (hf : f.Like C f') {b : Yield}
    {w w' : Waiting .flow b} (hw : w.Like C w') {k k' : Stack b} (hk : k.Like C k')
    (hmore : C.more = [] ∨ (Control.flow f (.push w k)).atEnd = false) :
    Alike C (serveFlow s f w k) (serveFlow s' f' w' k') := by
  cases hw with
  | block hr ha =>
    cases hf with
    | normal =>
      cases hr with
      | nil => exact ⟨h.leave ha, .flow .normal hk⟩
      | cons hs hr => exact ⟨h, .exec hs (.push (.block hr ha) hk)⟩
    | returned hv => exact ⟨h.leave ha, .flow (.returned hv) hk⟩
  | loopBody ht hb =>
    cases hf with
    | normal => exact ⟨h, .eval ht (.push (.loopTest ht hb) hk)⟩
    | returned hv => exact ⟨h, .flow (.returned hv) hk⟩
  | body hg => exact .ofResult (h.withDepth (· - 1)) (hg.result h.store hf) hk
  | program hr =>
    cases hr with
    | nil =>
      have hmore : C.more = [] := hmore.resolve_right Bool.noConfusion
      rw [hmore]
      exact ⟨h, .flow .normal hk⟩
    | cons hs hr => exact ⟨h, .exec hs (.push (.program hr) hk)⟩

theorem unwind (h : s.Like C s') {e e' : RuntimeError} (he : e.Like C.toLikeness e') {a b : Yield}
    {w w' : Waiting a b} (hw : w.Like C w') {k k' : Stack b} (hk : k.Like C k') :
    Alike C ⟨unwind s w, .raise e k⟩ ⟨unwind s' w', .raise e' k'⟩ := by
  cases hw with
  | block _ ha => exact ⟨h.leave ha, .raise he hk⟩
  | body => exact ⟨h.withDepth (· - 1), .raise he hk⟩
  | _ => exact ⟨h, .raise he hk⟩

variable {m m' : Machine}

theorem step (h : Alike C m m') (hmore : C.more = [] ∨ m.control.atEnd = false) :
    Alike C m.step m'.step := by
  obtain ⟨s, c⟩ := m
  obtain ⟨s', c'⟩ := m'
  obtain ⟨hs, hc⟩ := h
  cases hc with
  | eval he hk => exact .eval hs he hk
  | exec hstmt hk => exact .exec hs hstmt hk
  | value hv hk =>
    cases hk with
    | bottom => exact ⟨hs, .value hv .bottom⟩
    | push hw hk => exact .serveValue hs hv hw hk
  | flow hf hk =>
    cases hk with
    | bottom => exact ⟨hs, .flow hf .bottom⟩
    | push hw hk => exact .serveFlow hs hf hw hk hmore
  | raise he hk =>
    cases hk with
    | bottom => exact ⟨hs, .raise he .bottom⟩
    | push hw hk => exact .unwind hs he hw hk

theorem run (h : Alike C m m') (n : Nat)
    (hmore : C.more = [] ∨ ∀ i < n, (m.run i).control.atEnd = false) :
    Alike C (m.run n) (m'.run n) := by
  induction n with
  | zero => exact h
  | succ n ih =>
    rw [run_last, run_last]
    exact (ih (hmore.imp_right fun hi i hlt => hi i (Nat.lt_succ_of_lt hlt))).step
      (hmore.imp_right fun hi => hi n (Nat.lt_succ_self n))

end Machine.Alike

end Lox
