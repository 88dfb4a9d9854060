/-
The values that exist. They lie in the store, wait on the stack or are about to be
served. A value that exists after a step existed before it, or was made by it
(`Machine.holds_step`), and a step makes no other functions than the methods that
it binds to an instance and the one that a statement declares.
-/
import Lox.Proofs.Machine.Origin
import Lox.Proofs.Machine.Over

namespace Lox

/-! ## The values of a machine -/

/-- The values that a waiting computation holds. -/
def Waiting.values {a b : Yield} : Waiting a b → List Value
  | .binaryRight left _ => [left]
  | .argument f _ done _ => f :: done
  | .fieldValue o _ | .construct o => [.object o]
  | .body f => [.callable (.closure f)]
  | _ => []

/-- The values on the stack. -/
def Stack.values : {a : Yield} → Stack a → List Value
  | _, .bottom => []
  | _, .push w k => w.values ++ k.values

/-- The values that a machine has to do with. -/
def Control.values : Control → List Value
  | .eval _ k | .flow .normal k => k.values
  | .exec _ k => k.values
  | .value v k | .flow (.returned v) k => v :: k.values
  | .raise _ k => k.values

/-- The value exists. -/
def Machine.Holds (m : Machine) (v : Value) : Prop := m.state.store.Holds v ∨ v ∈ m.control.values

/-- All values that exist have the property. -/
structure Machine.All (P : Value → Prop) (m : Machine) : Prop where
  store : m.state.store.All P
  control : ∀ v ∈ m.control.values, P v

theorem Machine.All.holds {P : Value → Prop} {m : Machine} (h : m.All P) {v : Value}
    (hv : m.Holds v) : P v := by
  rcases hv with hv | hv
  · exact h.store.holds hv
  · exact h.control v hv

/-! ## What a step makes -/

/-- The machine is about to call the value, and the stack waits for what it yields. -/
inductive Control.Calls (callee : Value) (k : Stack .value) : Control → Prop
  | plain {paren} : Calls callee k (.value callee (.push (.callee paren []) k))
  | last {paren done v} : Calls callee k (.value v (.push (.argument callee paren done []) k))

/-- The machine binds a method to the instance: it reads a property that is no field of it, or makes
it and starts its initializer. -/
inductive Machine.Binds (m : Machine) (o : Instance) (f : Closure) : Prop
  | property {name k} : m.control = .value (.object o) (.push (.property name) k) →
    (m.state.store.fields o.id).get? name.lexeme = none →
    m.step.control = .value (.callable (.closure f)) k → Binds m o f
  | init {c k around} : m.control.Calls (.callable (.class c)) k →
    m.step.control = .flow .normal
      (.push (.block f.decl.body around) (.push (.body f) (.push (.construct o) k))) → Binds m o f

/-- The values that a step makes. -/
inductive Machine.Makes (m : Machine) : Value → Prop
  | plain {v} : v.Plain → Makes m v
  | bound {o f} : m.Binds o f → Makes m (.callable (.closure f))
  | function {decl k} : m.control = .exec (.function decl) k →
    Makes m (.callable (.closure (m.state.store.closure decl m.state.env false).1))
  | «class» {name decls k stamp methods} : m.control = .exec (.class name decls) k →
    Makes m (.callable (.class ⟨stamp, name.lexeme, methods⟩))
  | object {c k} : m.control.Calls (.callable (.class c)) k →
    Makes m (.object ⟨m.state.store.objects.size, c⟩)

/-! ## Steps -/

namespace Machine

variable {P : Value → Prop} {s : State}

namespace All

theorem value {v : Value} {k : Stack .value} (hs : s.store.All P) (hv : P v)
    (hk : ∀ v ∈ k.values, P v) : All P ⟨s, .value v k⟩ :=
  ⟨hs, List.forall_mem_cons.2 ⟨hv, hk⟩⟩

theorem ofResult {r : Except RuntimeError Value} {k : Stack .value} (hs : s.store.All P)
    (hr : ∀ x, r = .ok x → P x) (hk : ∀ v ∈ k.values, P v) : All P ⟨s, .ofResult r k⟩ := by
  cases r with
  | ok x => exact value hs (hr x rfl) hk
  | error e => exact ⟨hs, hk⟩

theorem lookUp (hs : s.store.All P) {id : NodeId} {name : Token} {x : Value}
    (h : s.lookUp id name = .ok x) : P x := by
  obtain ⟨f, hf⟩ := State.frame_of_lookUp h
  exact hs.vars _ _ _ hf

theorem assign {id : NodeId} {name : Token} {v : Value} {k : Stack .value} (hs : s.store.All P)
    (hv : P v) (hk : ∀ v ∈ k.values, P v) : All P (assign s id name v k) := by
  unfold Machine.assign
  split
  next f _ => exact value (hs.setVar f name.lexeme hv) hv hk
  next => exact ⟨hs, hk⟩

theorem property {o : Instance} {name : Token} {k : Stack .value} (hs : s.store.All P)
    (ho : P (.object o)) (hk : ∀ v ∈ k.values, P v)
    (hnew : ∀ f, (s.store.fields o.id).get? name.lexeme = none →
      (property s o name k).control = .value (.callable (.closure f)) k → P (.callable (.closure f))) :
    All P (property s o name k) := by
  unfold Machine.property at hnew ⊢
  split at hnew
  next v hv => exact value hs (hs.fields _ _ _ hv) hk
  next hnone =>
    split at hnew
    next f hf => exact value (hs.bind f ho) (hnew _ hnone rfl) hk
    next => exact ⟨hs, hk⟩

theorem enterBody {f : Closure} {args : List Value} {k : Stack .value} (hs : s.store.All P)
    (hf : P (.callable (.closure f))) (hargs : ∀ v ∈ args, P v) (hk : ∀ v ∈ k.values, P v) :
    All P (enterBody s f args k) := by
  refine ⟨hs.addFrame fun name v hv => ?_, List.forall_mem_cons.2 ⟨hf, hk⟩⟩
  exact hargs v (Bindings.get?_ofList_zip hv).2

theorem callNative (hplain : ∀ v : Value, v.Plain → P v) {f : Native} {args : List Value}
    {k : Stack .value} (hs : s.store.All P) (hk : ∀ v ∈ k.values, P v) :
    All P (callNative s f args k) := by
  obtain ⟨time, v, hv, hcall⟩ := callNative_cases s f args k
  rw [hcall]
  exact value (s := { s with time }) hs (hplain v hv) hk

theorem instantiate {c : Class} {args : List Value} {k : Stack .value} (hs : s.store.All P)
    (hargs : ∀ v ∈ args, P v) (hk : ∀ v ∈ k.values, P v)
    (hobject : P (.object ⟨s.store.objects.size, c⟩))
    (hbound : ∀ o f around, (instantiate s c args k).control = .flow .normal
      (.push (.block f.decl.body around) (.push (.body f) (.push (.construct o) k))) →
        P (.callable (.closure f))) : All P (instantiate s c args k) := by
  unfold Machine.instantiate at hbound ⊢
  simp only [State.withStore_eq] at hbound ⊢
  split at hbound
  next => exact value hs.addObject hobject hk
  next f hf =>
    exact enterBody (hs.addObject.bind f hobject) (hbound _ _ _ rfl) hargs
      (List.forall_mem_cons.2 ⟨hobject, hk⟩)

theorem call (hplain : ∀ v : Value, v.Plain → P v) {callee : Value} {paren : Token}
    {args : List Value} {k : Stack .value} (hs : s.store.All P) (hc : P callee)
    (hargs : ∀ v ∈ args, P v) (hk : ∀ v ∈ k.values, P v)
    (hobject : ∀ c, callee = .callable (.class c) → P (.object ⟨s.store.objects.size, c⟩))
    (hbound : ∀ c o f around, callee = .callable (.class c) →
      (call s callee paren args k).control = .flow .normal
        (.push (.block f.decl.body around) (.push (.body f) (.push (.construct o) k))) →
        P (.callable (.closure f))) : All P (call s callee paren args k) := by
  obtain ⟨e, hcall⟩ | ⟨f, rfl, -, -, hcall⟩ := call_cases s callee paren args k
  · rw [hcall]
    exact ⟨hs, hk⟩
  · rw [hcall] at hbound ⊢
    cases f with
    | native f => exact callNative hplain hs hk
    | closure f => exact enterBody hs hc hargs hk
    | «class» c =>
      exact instantiate hs hargs hk (hobject c rfl) fun o f around h => hbound c o f around rfl h

theorem nextArgument (hplain : ∀ v : Value, v.Plain → P v) {callee : Value} {paren : Token}
    {done : List Value} {rest : List Expr} {k : Stack .value} (hs : s.store.All P) (hc : P callee)
    (hdone : ∀ v ∈ done, P v) (hk : ∀ v ∈ k.values, P v)
    (hobject : rest = [] → ∀ c, callee = .callable (.class c) →
      P (.object ⟨s.store.objects.size, c⟩))
    (hbound : rest = [] → ∀ c o f around, callee = .callable (.class c) →
      (Machine.call s callee paren done.reverse k).control = .flow .normal
        (.push (.block f.decl.body around) (.push (.body f) (.push (.construct o) k))) →
        P (.callable (.closure f))) : All P (nextArgument s callee paren done rest k) := by
  cases rest with
  | nil =>
    exact call hplain hs hc (fun v hv => hdone v (List.mem_reverse.1 hv)) hk (hobject rfl)
      (hbound rfl)
  | cons e rest =>
    exact ⟨hs, List.forall_mem_append.2 ⟨List.forall_mem_cons.2 ⟨hc, hdone⟩, hk⟩⟩

end All

/-- The value existed before the step or is made by it. -/
def After (m : Machine) (v : Value) : Prop := m.Holds v ∨ m.Makes v

theorem after_store (m : Machine) : m.state.store.All m.After :=
  ⟨fun _ _ _ hv => .inl (.inl (.var hv)), fun _ _ _ hv => .inl (.inl (.field hv))⟩

theorem after_plain (m : Machine) (v : Value) (h : v.Plain) : m.After v := .inr (.plain h)

theorem after_eval (s : State) (e : Expr) (k : Stack .value) :
    All (After ⟨s, .eval e k⟩) (eval s k e) := by
  have hs := after_store ⟨s, .eval e k⟩
  have hk : ∀ v ∈ k.values, After ⟨s, .eval e k⟩ v := fun v hv => .inl (.inr hv)
  cases e with
  | literal l => exact .value hs (after_plain _ _ l.plain) hk
  | «variable» | this => exact .ofResult hs (fun x hx => All.lookUp hs hx) hk
  | _ => exact ⟨hs, hk⟩

theorem after_exec (s : State) (stmt : Stmt) (k : Stack .flow) :
    All (After ⟨s, .exec stmt k⟩) (exec s k stmt) := by
  have hs := after_store ⟨s, .exec stmt k⟩
  have hk : ∀ v ∈ k.values, After ⟨s, .exec stmt k⟩ v := fun v hv => .inl (.inr hv)
  cases stmt with
  | var name init =>
    cases init with
    | none => exact ⟨hs.setVar _ _ (after_plain _ _ trivial), hk⟩
    | some e => exact ⟨hs, hk⟩
  | block body => exact ⟨hs.addFrame (fun _ _ h => by cases h), hk⟩
  | function decl => exact ⟨(hs.stamp _).setVar _ _ (.inr (.function rfl)), hk⟩
  | ret keyword value =>
    cases value with
    | none => exact ⟨hs, List.forall_mem_cons.2 ⟨after_plain _ _ trivial, hk⟩⟩
    | some e => exact ⟨hs, hk⟩
  | «class» name decls =>
    obtain ⟨stamp, hstore⟩ := Store.methods_store s.env decls s.store .empty
    simp only [exec, State.withStore_eq, hstore, Store.freshStamp]
    exact ⟨(hs.stamp _).setVar _ _ (.inr (.class rfl)), hk⟩
  | _ => exact ⟨hs, hk⟩

theorem after_serveValue (s : State) (v : Value) {b : Yield} (w : Waiting .value b) (k : Stack b) :
    All (After ⟨s, .value v (.push w k)⟩) (serveValue s v w k) := by
  have hs := after_store ⟨s, .value v (.push w k)⟩
  have hall : ∀ x ∈ v :: (w.values ++ k.values), After ⟨s, .value v (.push w k)⟩ x :=
    fun x hx => .inl (.inr hx)
  obtain ⟨hv, hall⟩ := List.forall_mem_cons.1 hall
  obtain ⟨hw, hk⟩ := List.forall_mem_append.1 hall
  have hplain := after_plain ⟨s, .value v (.push w k)⟩
  cases w with
  | unary op => exact .ofResult hs (fun x hx => hplain x (plain_unaryOperation hx)) hk
  | binaryLeft op right => exact ⟨hs, List.forall_mem_cons.2 ⟨hv, hk⟩⟩
  | binaryRight left op => exact .ofResult hs (fun x hx => hplain x (plain_binaryOperation hx)) hk
  | logical op right =>
    rw [serveValue]
    split
    · exact .value hs hv hk
    · exact ⟨hs, hk⟩
  | assign id name => exact .assign hs hv hk
  | callee paren args =>
    refine .nextArgument hplain hs hv (fun _ h => by cases h) hk (fun h c hc => ?_) fun h c o f around hc hcall => ?_
    · subst h hc
      exact .inr (.object .plain)
    · subst h hc
      exact .inr (.bound (.init .plain hcall))
  | argument f paren done rest =>
    obtain ⟨hf, hdone⟩ := List.forall_mem_cons.1 hw
    refine .nextArgument hplain hs hf (List.forall_mem_cons.2 ⟨hv, hdone⟩) hk
      (fun h c hc => ?_) fun h c o f around hc hcall => ?_
    · subst h hc
      exact .inr (.object .last)
    · subst h hc
      exact .inr (.bound (.init .last hcall))
  | property name =>
    cases v with
    | object o => exact .property hs hv hk fun f hnone h => .inr (.bound (.property rfl hnone h))
    | _ => exact ⟨hs, hk⟩
  | fieldObject name e =>
    cases v with
    | object o => exact ⟨hs, List.forall_mem_cons.2 ⟨hv, hk⟩⟩
    | _ => exact ⟨hs, hk⟩
  | fieldValue o name => exact .value (hs.setField _ _ hv) hv hk
  | construct o => exact .value hs (hw _ (List.mem_singleton.2 rfl)) hk
  | define name => exact ⟨hs.setVar _ _ hv, hk⟩
  | branch thenPart elsePart =>
    cases elsePart with
    | none | some => rw [serveValue]; split <;> exact ⟨hs, hk⟩
  | loopTest test body => rw [serveValue]; split <;> exact ⟨hs, hk⟩
  | ret => exact ⟨hs, List.forall_mem_cons.2 ⟨hv, hk⟩⟩
  | discard | print => exact ⟨hs, hk⟩

theorem after_serveFlow (s : State) (f : Flow) {b : Yield} (w : Waiting .flow b) (k : Stack b) :
    All (After ⟨s, .flow f (.push w k)⟩) (serveFlow s f w k) := by
  have hs := after_store ⟨s, .flow f (.push w k)⟩
  have hf : ∀ v, f = .returned v → After ⟨s, .flow f (.push w k)⟩ v := by
    rintro v rfl
    exact .inl (.inr (List.mem_cons_self ..))
  have hk : ∀ v ∈ k.values, After ⟨s, .flow f (.push w k)⟩ v := by
    intro v hv
    have hmem : v ∈ (Stack.push w k).values := List.mem_append_right _ hv
    cases f with
    | normal => exact .inl (.inr hmem)
    | returned => exact .inl (.inr (List.mem_cons_of_mem _ hmem))
  have pass {k' : Stack .flow} (hk : ∀ v ∈ k'.values, After ⟨s, .flow f (.push w k)⟩ v) :
      ∀ v ∈ (Control.flow f k').values, After ⟨s, .flow f (.push w k)⟩ v := by
    cases f with
    | normal => exact hk
    | returned v => exact List.forall_mem_cons.2 ⟨hf v rfl, hk⟩
  cases w with
  | block rest around =>
    cases f with
    | normal =>
      cases rest with
      | nil => exact ⟨hs, pass hk⟩
      | cons => exact ⟨hs, hk⟩
    | returned => exact ⟨hs, pass hk⟩
  | loopBody test body =>
    cases f with
    | normal => exact ⟨hs, hk⟩
    | returned => exact ⟨hs, pass hk⟩
  | body g => exact .ofResult hs (fun x hx => hs.result (after_plain _) hf hx) hk
  | program rest => cases rest <;> exact ⟨hs, hk⟩

/-- A value that exists after a step existed before, or is made by the step. -/
theorem holds_step {m : Machine} {v : Value} (h : m.step.Holds v) : m.Holds v ∨ m.Makes v := by
  refine All.holds (P := m.After) ?_ h
  obtain ⟨s, c⟩ := m
  cases c with
  | eval e k => exact after_eval s e k
  | exec stmt k => exact after_exec s stmt k
  | value v k =>
    cases k with
    | bottom => exact ⟨after_store _, fun x hx => .inl (.inr hx)⟩
    | push w k => exact after_serveValue s v w k
  | flow f k =>
    cases k with
    | bottom => exact ⟨after_store _, fun x hx => .inl (.inr hx)⟩
    | push w k => exact after_serveFlow s f w k
  | raise e k =>
    cases k with
    | bottom => exact ⟨after_store _, fun x hx => .inl (.inr hx)⟩
    | push w k =>
      have hk : ∀ x ∈ k.values, After ⟨s, .raise e (.push w k)⟩ x := fun x hx =>
        .inl (.inr (List.mem_append_right _ hx))
      have hs := after_store ⟨s, .raise e (.push w k)⟩
      cases w with
      | block | body => exact ⟨hs, hk⟩
      | _ => exact ⟨hs, hk⟩

end Machine

end Lox
