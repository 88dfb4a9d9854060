/-
Where the values that a step works with come from. What a look-up finds is in
some frame, what an operator yields is no function, class or object, and the
methods of a class are made of its declarations.
-/
import Lox.Machine.Step

namespace Lox

/-! ## Values of operators -/

/-- Neither a function nor a class nor an object. -/
def Value.Plain : Value → Prop
  | .callable _ | .object _ => False
  | _ => True

theorem Literal.plain (l : Literal) : l.value.Plain := by
  cases l <;> trivial

theorem plain_unaryOperation {op : Token} {v x : Value} (h : unaryOperation op v = .ok x) :
    x.Plain := by
  unfold unaryOperation at h
  split at h <;> cases h <;> trivial

theorem plain_numberOperation {kind : TokenKind} {f : Float → Float → Value}
    (h : numberOperation? kind = some f) (x y : Float) : (f x y).Plain := by
  unfold numberOperation? at h
  split at h <;> cases h <;> trivial

theorem plain_binaryOperation {op : Token} {v w x : Value} (h : binaryOperation op v w = .ok x) :
    x.Plain := by
  unfold binaryOperation at h
  split at h
  · cases h; trivial
  · cases h; trivial
  · split at h <;> cases h <;> trivial
  · split at h
    · split at h
      next hf => cases h; exact plain_numberOperation hf _ _
      next => cases h
    · cases h

/-! ## The values in a store -/

/-- The value is that of a variable or of a field. -/
inductive Store.Holds (s : Store) : Value → Prop
  | var {f name v} : (s.frame f).get? name = some v → Holds s v
  | field {o name v} : (s.fields o).get? name = some v → Holds s v

/-- All values in the store have the property. -/
structure Store.All (P : Value → Prop) (s : Store) : Prop where
  vars : ∀ f name v, (s.frame f).get? name = some v → P v
  fields : ∀ o name v, (s.fields o).get? name = some v → P v

namespace Store.All

variable {P : Value → Prop} {s : Store}

theorem holds (h : s.All P) {v : Value} (hv : s.Holds v) : P v := by
  cases hv with
  | var hv => exact h.vars _ _ _ hv
  | field hv => exact h.fields _ _ _ hv

theorem mono {Q : Value → Prop} (h : s.All P) (hPQ : ∀ v, P v → Q v) : s.All Q :=
  ⟨fun f name v hv => hPQ v (h.vars f name v hv), fun o name v hv => hPQ v (h.fields o name v hv)⟩

theorem setVar (h : s.All P) (f : FrameId) (name : String) {v : Value} (hv : P v) :
    (s.setVar f name v).All P := by
  refine ⟨fun g other w hw => ?_, h.fields⟩
  rw [frame_setVar] at hw
  split at hw
  · rw [Bindings.get?_set] at hw
    split at hw
    · cases hw
      exact hv
    · exact h.vars _ _ _ hw
  · exact h.vars _ _ _ hw

theorem setField (h : s.All P) (o : ObjectId) (name : String) {v : Value} (hv : P v) :
    (s.setField o name v).All P := by
  refine ⟨h.vars, fun p other w hw => ?_⟩
  rw [fields_setField] at hw
  split at hw
  · rw [Bindings.get?_set] at hw
    split at hw
    · cases hw
      exact hv
    · exact h.fields _ _ _ hw
  · exact h.fields _ _ _ hw

theorem addFrame (h : s.All P) {vars : Bindings Value}
    (hv : ∀ name v, vars.get? name = some v → P v) : (s.addFrame vars).2.All P := by
  refine ⟨fun f name v hf => ?_, h.fields⟩
  rw [frame_addFrame] at hf
  split at hf
  · exact hv name v hf
  · exact h.vars f name v hf

theorem addObject (h : s.All P) : s.addObject.2.All P := by
  refine ⟨h.vars, fun o name v ho => ?_⟩
  rw [fields_addObject] at ho
  split at ho
  · cases ho
  · exact h.fields o name v ho

/-- The number for the next function does not matter. -/
theorem stamp (h : s.All P) (n : Nat) : ({ s with nextStamp := n } : Store).All P :=
  ⟨h.vars, h.fields⟩

theorem bind (h : s.All P) (f : Closure) {o : Instance} (ho : P (.object o)) :
    (s.bind f o).2.All P := by
  refine (h.addFrame fun name v hv => ?_).stamp _
  rw [Bindings.get?_set] at hv
  split at hv <;> cases hv
  exact ho

end Store.All

/-- At first there is no value but the clock. -/
theorem Store.holds_initial {readings : Nat → Int64} {v : Value}
    (h : (State.initial readings).store.Holds v) : v = .callable (.native clock) := by
  cases h with
  | field hv => cases hv
  | @var f name v hv =>
    match f, hv with
    | 0, hv =>
      have hv : (Bindings.empty.set clock.name (.callable (.native clock))).get? name = some v := hv
      rw [Bindings.get?_set] at hv
      split at hv <;> cases hv
      rfl
    | f + 1, hv => cases hv

theorem Store.All.initial {P : Value → Prop} (h : P (.callable (.native clock)))
    (readings : Nat → Int64) : (State.initial readings).store.All P :=
  ⟨fun _ _ _ hv => holds_initial (.var hv) ▸ h, fun _ _ _ hv => holds_initial (.field hv) ▸ h⟩

/-! ## Look-ups -/

namespace Store

variable {s : Store} {env : Env} {name : String} {x : Value}

theorem frame_of_getAt? {d : Nat} (h : s.getAt? env d name = some x) :
    ∃ f, (s.frame f).get? name = some x := by
  rw [getAt?, Option.bind_eq_bind, Option.bind_eq_some_iff] at h
  obtain ⟨f, -, hf⟩ := h
  exact ⟨f, hf⟩

end Store

namespace State

variable {s : State} {id : NodeId}

theorem frame_of_lookUp {name : Token} {x : Value} (h : s.lookUp id name = .ok x) :
    ∃ f, (s.store.frame f).get? name.lexeme = some x := by
  rw [lookUp_eq] at h
  split at h
  next y hy =>
    cases h
    obtain ⟨f, -, hf⟩ := Option.bind_eq_some_iff.1 hy
    exact ⟨f, hf⟩
  next => cases h

/-- The holder of a name has it. -/
theorem contains_of_holder? {name : String} {f : FrameId} (h : s.holder? id name = some f) :
    (s.store.frame f).contains name = true := by
  unfold holder? at h
  split at h
  · exact (Option.filter_eq_some_iff.1 h).2
  · exact List.find?_some (p := fun f => (s.store.frame f).contains name) h

end State

/-- What a function yields is returned, or is the receiver in its environment. -/
theorem Store.All.result {P : Value → Prop} {s : Store} (hs : s.All P)
    (hplain : ∀ v : Value, v.Plain → P v) {f : Closure} {ended : Flow}
    (he : ∀ v, ended = .returned v → P v) {x : Value} (h : f.result s ended = .ok x) : P x := by
  unfold Closure.result at h
  split at h
  · split at h
    next v hv =>
      cases h
      obtain ⟨frame, hframe⟩ := Store.frame_of_getAt? hv
      exact hs.vars _ _ _ hframe
    next => cases h
  · split at h <;> cases h
    · exact hplain _ trivial
    · exact he _ rfl

/-- A native function yields a plain value. -/
theorem Machine.callNative_cases (s : State) (f : Native) (args : List Value) (k : Stack .value) :
    ∃ time v, v.Plain ∧ callNative s f args k = ⟨{ s with time }, .value v k⟩ := by
  unfold callNative
  split
  exact ⟨_, .number (seconds s.time.reading), trivial, rfl⟩

/-! ## Methods -/

/-- A method of a new class is made of one of the declarations. -/
theorem Store.method_of_methods {s : Store} {env : Env} {decls : List FunctionDecl}
    {found : Bindings Closure} {name : String} {f : Closure}
    (h : (s.methods env decls found).1.get? name = some f) :
    (∃ stamp, ∃ decl ∈ decls, f = ⟨stamp, decl, env, decl.isInit⟩) ∨ found.get? name = some f := by
  induction decls generalizing s found with
  | nil => exact .inr h
  | cons decl rest ih =>
    rcases ih h with ⟨stamp, d, hd, rfl⟩ | hf
    · exact .inl ⟨stamp, d, List.mem_cons_of_mem _ hd, rfl⟩
    · rw [Bindings.get?_set] at hf
      split at hf
      · cases hf
        exact .inl ⟨s.nextStamp, decl, List.mem_cons_self .., rfl⟩
      · exact .inr hf

/-- Making the methods of a class takes numbers and leaves the frames and the objects alone. -/
theorem Store.methods_store (env : Env) (decls : List FunctionDecl) (store : Store)
    (found : Bindings Closure) :
    ∃ stamp, (store.methods env decls found).2 = { store with nextStamp := stamp } := by
  induction decls generalizing store found with
  | nil => exact ⟨store.nextStamp, rfl⟩
  | cons decl rest ih =>
    obtain ⟨stamp, h⟩ := ih (store.closure decl env decl.isInit).2
      (found.set decl.name.lexeme (store.closure decl env decl.isInit).1)
    exact ⟨stamp, h⟩

end Lox
