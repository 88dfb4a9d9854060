/-
Assignments to properties, from the object to the write. What waits on the stack
for a part of such an assignment was put there when the assignment started, or
when its object was there (`Machine.settings_step`). So each write of a field is the
end of an assignment that was evaluated from its start (`Sets`), and an assignment
that is over has either written the field in its last step or failed without having
written it (`Returns.set_cases`, `Returns.not_set`).
-/
import Lox.Proofs.Machine.Over

namespace Lox

/-! ## What waits for a part of an assignment -/

/-- A part of an assignment to a property that is being evaluated, the object or the value for an
instance, and what waits for the whole. -/
inductive Setting
  | object (name : Token) (e : Expr) (k : Stack .value)
  | value (o : Instance) (name : Token) (k : Stack .value)

namespace Setting

/-- What waits for the assignment. -/
def rest : Setting → Stack .value
  | .object _ _ k | .value _ _ k => k

/-- What waits for the part. -/
def stack : Setting → Stack .value
  | .object name e k => .push (.fieldObject name e) k
  | .value o name k => .push (.fieldValue o name) k

end Setting

/-- The parts of assignments that are waited for, innermost first. -/
def Stack.settings : {a : Yield} → Stack a → List Setting
  | _, .bottom => []
  | _, .push (.fieldObject name e) k => .object name e k :: k.settings
  | _, .push (.fieldValue o name) k => .value o name k :: k.settings
  | _, .push _ k => k.settings

def Control.settings : Control → List Setting
  | .eval _ k | .value _ k => k.settings
  | .exec _ k | .flow _ k => k.settings
  | .raise _ k => k.settings

/-- The next step goes on to a part of an assignment. -/
inductive Control.Starts : Setting → Control → Prop
  | object {object name e k} : Starts (.object name e k) (.eval (.set object name e) k)
  | value {o name e k} :
    Starts (.value o name k) (.value (.object o) (.push (.fieldObject name e) k))

theorem Control.Starts.eval {name : Token} {e : Expr} {k : Stack .value} {c : Control}
    (h : c.Starts (.object name e k)) : ∃ object, c = .eval (.set object name e) k := by
  cases h
  exact ⟨_, rfl⟩

theorem Control.Starts.served {o : Instance} {name : Token} {k : Stack .value} {c : Control}
    (h : c.Starts (.value o name k)) :
    ∃ e, c = .value (.object o) (.push (.fieldObject name e) k) := by
  cases h
  exact ⟨_, rfl⟩

theorem Stack.height_of_settings {a : Yield} {k : Stack a} {x : Setting} (h : x ∈ k.settings) :
    x.rest.height < k.height := by
  induction k with
  | bottom => cases h
  | push w k ih =>
    cases w with
    | fieldObject | fieldValue =>
      rcases List.mem_cons.1 h with rfl | h
      · exact Nat.lt_succ_self _
      · exact Nat.lt_succ_of_lt (ih h)
    | _ => exact Nat.lt_succ_of_lt (ih h)

namespace Machine

variable {s : State} {x : Setting}

/-! ## Steps -/

theorem settings_ofResult (r : Except RuntimeError Value) (k : Stack .value) :
    (Control.ofResult r k).settings = k.settings := by
  cases r <;> rfl

theorem settings_assign (id : NodeId) (name : Token) (v : Value) (k : Stack .value) :
    (assign s id name v k).control.settings = k.settings := by
  unfold assign
  split <;> rfl

theorem settings_property (o : Instance) (name : Token) (k : Stack .value) :
    (property s o name k).control.settings = k.settings := by
  unfold property
  split
  · rfl
  · split <;> rfl

theorem settings_callNative (f : Native) (args : List Value) (k : Stack .value) :
    (callNative s f args k).control.settings = k.settings := by
  unfold callNative
  split
  rfl

theorem settings_instantiate (c : Class) (args : List Value) (k : Stack .value) :
    (instantiate s c args k).control.settings = k.settings := by
  unfold instantiate
  dsimp only
  split <;> rfl

theorem settings_call (callee : Value) (paren : Token) (args : List Value) (k : Stack .value) :
    (call s callee paren args k).control.settings = k.settings := by
  obtain ⟨e, h⟩ | ⟨f, -, -, -, h⟩ := call_cases s callee paren args k
  · rw [h]
    rfl
  · rw [h]
    cases f with
    | native f => exact settings_callNative f args k
    | closure f => rfl
    | «class» c => exact settings_instantiate c args k

theorem settings_nextArgument (callee : Value) (paren : Token) (done : List Value)
    (rest : List Expr) (k : Stack .value) :
    (nextArgument s callee paren done rest k).control.settings = k.settings := by
  cases rest with
  | nil => exact settings_call callee paren done.reverse k
  | cons => rfl

theorem settings_exec (stmt : Stmt) (k : Stack .flow) :
    (exec s k stmt).control.settings = k.settings := by
  cases stmt with
  | var name init => cases init <;> rfl
  | ret keyword value => cases value <;> rfl
  | _ => rfl

theorem settings_eval (e : Expr) (k : Stack .value) (h : x ∈ (eval s k e).control.settings) :
    x ∈ k.settings ∨ (Control.eval e k).Starts x := by
  cases e with
  | «variable» | this => exact .inl (settings_ofResult _ k ▸ h)
  | set object name e =>
    rcases List.mem_cons.1 h with rfl | h
    · exact .inr .object
    · exact .inl h
  | _ => exact .inl h

theorem settings_serveValue (v : Value) {b : Yield} (w : Waiting .value b) (k : Stack b)
    (h : x ∈ (serveValue s v w k).control.settings) :
    x ∈ (Stack.push w k).settings ∨ (Control.value v (.push w k)).Starts x := by
  cases w with
  | unary | binaryRight => exact .inl (settings_ofResult _ k ▸ h)
  | logical op right => rw [serveValue] at h; split at h <;> exact .inl h
  | assign id name => exact .inl (settings_assign id name v k ▸ h)
  | callee paren args => exact .inl (settings_nextArgument v paren [] args k ▸ h)
  | argument callee paren done rest =>
    exact .inl (settings_nextArgument callee paren (v :: done) rest k ▸ h)
  | property name =>
    cases v with
    | object o => exact .inl (settings_property o name k ▸ h)
    | _ => exact .inl h
  | fieldObject name e =>
    cases v with
    | object o =>
      rcases List.mem_cons.1 h with rfl | h
      · exact .inr .value
      · exact .inl (List.mem_cons_of_mem _ h)
    | _ => exact .inl (List.mem_cons_of_mem _ h)
  | fieldValue o name => exact .inl (List.mem_cons_of_mem _ h)
  | branch thenPart elsePart =>
    cases elsePart with
    | none | some => rw [serveValue] at h; split at h <;> exact .inl h
  | loopTest test body => rw [serveValue] at h; split at h <;> exact .inl h
  | _ => exact .inl h

theorem settings_serveFlow (f : Flow) {b : Yield} (w : Waiting .flow b) (k : Stack b) :
    (serveFlow s f w k).control.settings = (Stack.push w k).settings := by
  cases w with
  | block rest around =>
    cases f with
    | normal => cases rest <;> rfl
    | returned => rfl
  | loopBody => cases f <;> rfl
  | body => exact settings_ofResult _ k
  | program rest => cases rest <;> rfl

/-- What waits for a part of an assignment has waited before, or the step goes on to this part. -/
theorem settings_step {m : Machine} (h : x ∈ m.step.control.settings) :
    x ∈ m.control.settings ∨ m.control.Starts x := by
  obtain ⟨s, c⟩ := m
  cases c with
  | eval e k => exact settings_eval e k h
  | exec stmt k => exact .inl (show x ∈ k.settings from settings_exec stmt k ▸ h)
  | value v k =>
    cases k with
    | bottom => exact .inl h
    | push w k => exact settings_serveValue v w k h
  | flow f k =>
    cases k with
    | bottom => exact .inl h
    | push w k => exact .inl (show x ∈ (Stack.push w k).settings from settings_serveFlow f w k ▸ h)
  | raise e k =>
    cases k with
    | bottom => exact .inl h
    | push w k =>
      refine .inl ?_
      cases w with
      | fieldObject | fieldValue => exact List.mem_cons_of_mem _ h
      | _ => exact h

/-! ## From the start to the write -/

/-- The machine is about to evaluate an assignment to a property. Its object expression yields the
instance, and after `n` steps its value expression yields the value, so that the next step writes
the field and yields the value. -/
structure Sets (m : Machine) (n : Nat) (o : Instance) (name : Token) (v : Value)
    (k : Stack .value) : Prop where
  start : ∃ object e, m.control = .eval (.set object name e) k ∧
    ∃ i < n, (m.run i).control = .value (.object o) (.push (.fieldObject name e) k)
  write : (m.run n).control = .value v (.push (.fieldValue o name) k)
  returns : m.step.Returns k n

theorem over_of_starts {m : Machine} (h : m.control.Starts x) : m.step.control.Over x.stack := by
  obtain ⟨s, c⟩ := m
  cases h <;> exact .refl

/-- What waits for a part of an assignment waits until this part is served. -/
theorem over_of_settings {m : Machine} (hover : m.control.Over x.stack)
    (h : x ∈ m.step.control.settings) : m.step.control.Over x.stack := by
  have absent : x ∉ x.rest.settings := fun h =>
    Nat.lt_irrefl _ (Stack.height_of_settings h)
  cases x with
  | object name e k =>
    refine (over_step hover).resolve_right fun hserves => absent ?_
    obtain ⟨s, c⟩ := m
    cases hserves with
    | value v =>
      cases v with
      | object o => exact (List.mem_cons.1 h).resolve_left nofun
      | _ => exact h
    | raise => exact h
  | value o name k =>
    refine (over_step hover).resolve_right fun hserves => absent ?_
    obtain ⟨s, c⟩ := m
    cases hserves with
    | value | raise => exact h

section

variable {m : Machine} {object e : Expr} {name : Token} {k : Stack .value} {n : Nat}

theorem step_set {o : Instance} {v : Value}
    (h : m.control = .value v (.push (.fieldValue o name) k)) : m.step.control = .value v k := by
  obtain ⟨s, c⟩ := m
  obtain rfl : c = _ := h
  rfl

/-- When the object is served it is an instance, and the value expression is evaluated next, or the
assignment fails. -/
theorem serves_fieldObject (h : m.control.Serves k (.fieldObject name e)) :
    (∃ o, m.control = .value (.object o) (.push (.fieldObject name e) k) ∧
      m.step.control = .eval e (.push (.fieldValue o name) k)) ∨
    ∃ error, m.step.control = .raise error k := by
  obtain ⟨s, c⟩ := m
  cases h with
  | value v =>
    cases v with
    | object o => exact .inl ⟨o, rfl, rfl⟩
    | _ => exact .inr ⟨_, rfl⟩
  | raise error => exact .inr ⟨error, rfl⟩

theorem serves_fieldValue {o : Instance} (h : m.control.Serves k (.fieldValue o name)) :
    (∃ v, m.control = .value v (.push (.fieldValue o name) k)) ∨
    ∃ error, m.step.control = .raise error k := by
  obtain ⟨s, c⟩ := m
  cases h with
  | value v => exact .inl ⟨v, rfl⟩
  | raise error => exact .inr ⟨error, rfl⟩

/-- An assignment that is over has written the field in its last step, or it has failed. -/
theorem Returns.set_cases (hc : m.control = .eval (.set object name e) k)
    (h : m.step.Returns k n) :
    (∃ o v, m.Sets n o name v k) ∨ ∃ error, (m.run (n + 1)).control = .raise error k := by
  -- An error that is raised on what waits for the assignment ends it.
  have fails {i : Nat} (hi : i < n) {error : RuntimeError}
      (hlast : (m.step.run i).step.control = .raise error k) :
      ∃ error, (m.run (n + 1)).control = .raise error k := by
    rw [h.eq_succ hi (hlast ▸ Control.not_beyond_raise error k), run_succ, run_last]
    exact ⟨error, hlast⟩
  have hstart : m.step.control.Over (Setting.object name e k).stack :=
    over_of_starts (hc ▸ .object)
  obtain ⟨i, -, hi, hserves⟩ := h.served (Nat.zero_le n) hstart
  obtain ⟨o, hobject, hnext⟩ | ⟨error, hlast⟩ := serves_fieldObject hserves
  · have hover : (m.step.run (i + 1)).control.Over (Setting.value o name k).stack := by
      rw [run_last, hnext]
      exact .refl
    obtain ⟨j, hij, hj, hserves⟩ := h.served hi hover
    obtain ⟨v, hvalue⟩ | ⟨error, hlast⟩ := serves_fieldValue hserves
    · have hn : n = j + 1 :=
        h.eq_succ hj (step_set hvalue ▸ Control.not_beyond_value v k)
      refine .inl ⟨o, v, ⟨object, e, hc, i + 1, hn ▸ Nat.succ_lt_succ hij, ?_⟩, ?_, h⟩
      · rw [run_succ]
        exact hobject
      · rw [hn, run_succ]
        exact hvalue
    · exact .inr (fails hj hlast)
  · exact .inr (fails hi hlast)

/-- An assignment that has failed has not written the field. -/
theorem Returns.not_set (hc : m.control = .eval (.set object name e) k) (h : m.step.Returns k n)
    {error : RuntimeError} (hfails : (m.run (n + 1)).control = .raise error k) {i : Nat}
    (hi : i ≤ n) (o : Instance) (token : Token) (v : Value) :
    (m.run i).control ≠ .value v (.push (.fieldValue o token) k) := by
  intro hwrite
  cases i with
  | zero =>
    rw [run_zero, hc] at hwrite
    cases hwrite
  | succ i =>
    rw [run_succ] at hwrite
    have hlast := step_set hwrite
    rw [h.eq_succ hi (hlast ▸ Control.not_beyond_value v k), run_succ, run_last, hlast] at hfails
    cases hfails

end

end Machine

end Lox
