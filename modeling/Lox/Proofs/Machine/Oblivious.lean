/-
What the steps of a machine do not look at. Only look-ups and assignments ask
for a distance, and only calls of the clock ask for the time. All other steps
do the same to states that differ in nothing else (`oblivious_step`), and in
particular no step records a distance. A run depends on the clock only by what
it reads while the run asks for it (`run_shift`).
-/
import Lox.Machine.Step

namespace Lox

/-- The state with other distances and another clock. -/
def State.shift (s : State) (distances : Std.HashMap NodeId Nat) (time : Clock) : State :=
  { s with distances, time }

/-- The machine with other distances and another clock. -/
def Machine.shift (m : Machine) (distances : Std.HashMap NodeId Nat) (time : Clock) : Machine :=
  ⟨m.state.shift distances time, m.control⟩

/-- The node and the name that the next step looks up or assigns, if it does. -/
def Control.reference? : Control → Option (NodeId × Token)
  | .eval (.variable id name) _ | .eval (.this id name) _ => some (id, name)
  | .value _ (.push (.assign id name) _) => some (id, name)
  | _ => none

namespace Machine

/-! ## Steps without a name -/

/-- What a state is made into depends neither on the distances nor on the clock, unless it is a
reading of the clock, which does nothing else. -/
inductive Oblivious (s : State) (f : State → Machine) : Prop
  | blind : (∀ distances time, f (s.shift distances time) = (f s).shift distances time) →
    Oblivious s f
  | clock (k : Stack .value) :
    (∀ distances time, f (s.shift distances time) =
      ⟨s.shift distances time.next, .value (.number (seconds time.reading)) k⟩) → Oblivious s f

theorem Oblivious.distances {s : State} {f : State → Machine} (h : Oblivious s f) :
    (f s).state.distances = s.distances := by
  cases h with
  | blind h => exact congrArg (fun m : Machine => m.state.distances) (h s.distances s.time)
  | clock k h => exact congrArg (fun m : Machine => m.state.distances) (h s.distances s.time)

theorem Oblivious.time {s : State} {f : State → Machine} (h : Oblivious s f) :
    (f s).state.time = s.time ∨ (f s).state.time = s.time.next := by
  cases h with
  | blind h => exact .inl (congrArg (fun m : Machine => m.state.time) (h s.distances s.time))
  | clock k h => exact .inr (congrArg (fun m : Machine => m.state.time) (h s.distances s.time))

/-- Two computations that agree on all states that differ in nothing else. -/
theorem Oblivious.congr {s : State} {f g : State → Machine} (h : Oblivious s g)
    (he : ∀ distances time, f (s.shift distances time) = g (s.shift distances time)) :
    Oblivious s f := by
  have hs : f s = g s := he s.distances s.time
  cases h with
  | blind h => exact .blind fun d time => by rw [he, hs, h]
  | clock k h => exact .clock k fun d time => by rw [he, h]

variable (s : State)

theorem oblivious_property (o : Instance) (name : Token) (k : Stack .value) :
    Oblivious s fun s => property s o name k := by
  refine .blind fun distances time => ?_
  cases hf : (s.store.fields o.id).get? name.lexeme with
  | some v => simp only [property, State.shift, shift, hf]
  | none =>
    cases hm : o.cls.methods.get? name.lexeme with
    | some f => simp only [property, State.shift, shift, hf, hm, State.withStore_eq]
    | none => simp only [property, State.shift, shift, hf, hm]

theorem oblivious_callNative (f : Native) (args : List Value) (k : Stack .value) :
    Oblivious s fun s => callNative s f args k := .clock k fun _ _ => rfl

theorem oblivious_instantiate (c : Class) (args : List Value) (k : Stack .value) :
    Oblivious s fun s => instantiate s c args k := by
  refine .blind fun distances time => ?_
  cases hi : c.init? with
  | none => simp only [instantiate, hi]; rfl
  | some f => simp only [instantiate, hi]; rfl

theorem oblivious_call (callee : Value) (paren : Token) (args : List Value) (k : Stack .value) :
    Oblivious s fun s => call s callee paren args k := by
  cases callee with
  | nil | bool | number | string | object => exact .blind fun _ _ => rfl
  | callable f =>
    by_cases hn : args.length = f.arity
    · by_cases hd : maxDepth ≤ s.depth
      · refine .blind fun distances time => ?_
        simp only [call, State.shift, shift, hn, hd, ne_eq, not_true, if_false, if_true]
      · cases f with
        | native f =>
          refine (oblivious_callNative s f args k).congr fun distances time => ?_
          simp only [call, State.shift, hn, hd, ne_eq, not_true, if_false]
        | closure f =>
          refine .blind fun distances time => ?_
          simp only [call, State.shift, hn, hd, ne_eq, not_true, if_false]
          rfl
        | «class» c =>
          refine (oblivious_instantiate s c args k).congr fun distances time => ?_
          simp only [call, State.shift, hn, hd, ne_eq, not_true, if_false]
    · refine .blind fun distances time => ?_
      simp only [call, State.shift, shift, hn, ne_eq, not_false_eq_true, if_true]

theorem oblivious_nextArgument (callee : Value) (paren : Token) (done : List Value)
    (rest : List Expr) (k : Stack .value) :
    Oblivious s fun s => nextArgument s callee paren done rest k := by
  cases rest with
  | nil => exact oblivious_call s callee paren done.reverse k
  | cons e rest => exact .blind fun _ _ => rfl

theorem oblivious_exec (stmt : Stmt) (k : Stack .flow) : Oblivious s fun s => exec s k stmt := by
  refine .blind fun distances time => ?_
  cases stmt with
  | var name init => cases init <;> rfl
  | ret keyword e => cases e <;> rfl
  | _ => rfl

theorem oblivious_serveValue (v : Value) {b : Yield} (w : Waiting .value b) (k : Stack b)
    (h : (Control.value v (.push w k)).reference? = none) :
    Oblivious s fun s => serveValue s v w k := by
  cases w with
  | assign id name => cases h
  | logical op right =>
    refine .blind fun distances time => ?_
    cases hd : decides op v <;>
      simp only [serveValue, State.shift, shift, hd, Bool.false_eq_true, if_false, if_true]
  | callee paren args => exact oblivious_nextArgument s v paren [] args k
  | argument callee paren done rest => exact oblivious_nextArgument s callee paren (v :: done) rest k
  | property name =>
    cases v with
    | object o => exact oblivious_property s o name k
    | _ => exact .blind fun _ _ => rfl
  | fieldObject name e => cases v <;> exact .blind fun _ _ => rfl
  | branch thenPart elsePart =>
    refine .blind fun distances time => ?_
    cases hv : v.isTruthy <;> cases elsePart <;>
      simp only [serveValue, State.shift, shift, hv, Bool.false_eq_true, if_false, if_true]
  | loopTest test body =>
    refine .blind fun distances time => ?_
    cases hv : v.isTruthy <;>
      simp only [serveValue, State.shift, shift, hv, Bool.false_eq_true, if_false, if_true]
  | _ => exact .blind fun _ _ => rfl

theorem oblivious_serveFlow (f : Flow) {b : Yield} (w : Waiting .flow b) (k : Stack b) :
    Oblivious s fun s => serveFlow s f w k := by
  refine .blind fun distances time => ?_
  cases w with
  | block rest around => cases f <;> cases rest <;> rfl
  | loopBody test body => cases f <;> rfl
  | body f => rfl
  | program rest => cases rest <;> rfl

theorem oblivious_unwind (e : RuntimeError) {a b : Yield} (w : Waiting a b) (k : Stack b) :
    Oblivious s fun s => ⟨unwind s w, .raise e k⟩ := by
  refine .blind fun distances time => ?_
  cases w <;> rfl

/-- A step that neither looks up nor assigns a name. -/
theorem oblivious_step {c : Control} (h : c.reference? = none) :
    Oblivious s fun s => step ⟨s, c⟩ := by
  cases c with
  | eval e k =>
    cases e with
    | «variable» | this => cases h
    | _ => exact .blind fun _ _ => rfl
  | exec stmt k => exact oblivious_exec s stmt k
  | value v k =>
    cases k with
    | bottom => exact .blind fun _ _ => rfl
    | push w k => exact oblivious_serveValue s v w k h
  | flow f k =>
    cases k with
    | bottom => exact .blind fun _ _ => rfl
    | push w k => exact oblivious_serveFlow s f w k
  | raise e k =>
    cases k with
    | bottom => exact .blind fun _ _ => rfl
    | push w k => exact oblivious_unwind s e w k

/-! ## Steps with a name -/

variable {s}

/-- A look-up asks only for the frame that holds the name. -/
theorem lookUp_shift {distances : Std.HashMap NodeId Nat} {time : Clock} {id : NodeId}
    {name : Token}
    (h : (s.shift distances time).holder? id name.lexeme = s.holder? id name.lexeme) :
    (s.shift distances time).lookUp id name = s.lookUp id name := by
  rw [State.lookUp_eq, State.lookUp_eq, h]
  rfl

/-- The step is the same if the name is found in the same frame. -/
theorem step_reference {c : Control} {id : NodeId} {name : Token}
    (hc : c.reference? = some (id, name)) {distances : Std.HashMap NodeId Nat} {time : Clock}
    (h : (s.shift distances time).holder? id name.lexeme = s.holder? id name.lexeme) :
    step ⟨s.shift distances time, c⟩ = (step ⟨s, c⟩).shift distances time := by
  cases c with
  | eval e k =>
    cases e with
    | «variable» | this =>
      cases hc
      exact congrArg (fun r => Machine.mk (s.shift distances time) (.ofResult r k)) (lookUp_shift h)
    | _ => cases hc
  | value v k =>
    cases k with
    | bottom => cases hc
    | push w k =>
      cases w with
      | assign =>
        cases hc
        simp only [step, serveValue, assign, h]
        cases s.holder? id name.lexeme <;> rfl
      | _ => cases hc
  | exec | flow | raise => cases hc

/-- Distances are recorded before a program runs, never while it does. -/
theorem distances_step (m : Machine) : m.step.state.distances = m.state.distances := by
  obtain ⟨s, c⟩ := m
  cases hc : c.reference? with
  | none => exact (oblivious_step s hc).distances
  | some reference =>
    have h := @step_reference s c reference.1 reference.2 hc s.distances s.time rfl
    have := congrArg (fun m : Machine => m.state.distances) h
    exact this

theorem distances_run (m : Machine) (n : Nat) : (m.run n).state.distances = m.state.distances := by
  induction n generalizing m with
  | zero => rfl
  | succ n ih => rw [run_succ, ih, distances_step]

/-! ## The clock -/

theorem time_reference {c : Control} {reference : NodeId × Token}
    (hc : c.reference? = some reference) : (step ⟨s, c⟩).state.time = s.time := by
  have h := @step_reference s c reference.1 reference.2 hc s.distances s.time rfl
  exact congrArg (fun m : Machine => m.state.time) h

/-- A step asks the clock once or leaves it alone. -/
theorem time_step (m : Machine) :
    m.step.state.time = m.state.time ∨ m.step.state.time = m.state.time.next := by
  obtain ⟨s, c⟩ := m
  cases hc : c.reference? with
  | some reference => exact .inl (time_reference hc)
  | none => exact (oblivious_step s hc).time

/-- What the clock reads is not up to the machine. -/
theorem readings_run (m : Machine) (n : Nat) :
    (m.run n).state.time.readings = m.state.time.readings := by
  induction n generalizing m with
  | zero => rfl
  | succ n ih =>
    rw [run_succ, ih]
    rcases time_step m with h | h
    · rw [h]
    · rw [h]
      rfl

theorem asked_le_step (m : Machine) : m.state.time.asked ≤ m.step.state.time.asked := by
  rcases time_step m with h | h
  · exact Nat.le_of_eq (congrArg Clock.asked h.symm)
  · exact Nat.le_trans (Nat.le_succ _) (Nat.le_of_eq (congrArg Clock.asked h.symm))

theorem asked_le_run (m : Machine) (n : Nat) :
    m.state.time.asked ≤ (m.run n).state.time.asked := by
  induction n generalizing m with
  | zero => exact Nat.le_refl _
  | succ n ih =>
    rw [run_succ]
    exact Nat.le_trans (asked_le_step m) (ih m.step)

/-! ## Runs side by side -/

/-- With other distances, by which each name is found in the same frame, a step does the same. The
clock must read the same, too, if the step asks for it. -/
theorem step_shift {m : Machine} {distances : Std.HashMap NodeId Nat} {readings : Nat → Int64}
    (hr : ∀ id name, m.control.reference? = some (id, name) →
      (m.state.shift distances ⟨readings, m.state.time.asked⟩).holder? id name.lexeme =
        m.state.holder? id name.lexeme)
    (ht : m.state.time.asked < m.step.state.time.asked →
      readings m.state.time.asked = m.state.time.reading) :
    (m.shift distances ⟨readings, m.state.time.asked⟩).step =
      m.step.shift distances ⟨readings, m.step.state.time.asked⟩ := by
  obtain ⟨s, c⟩ := m
  cases hc : c.reference? with
  | some reference =>
    rw [time_reference hc]
    exact step_reference hc (hr reference.1 reference.2 hc)
  | none =>
    rcases oblivious_step s hc with hblind | ⟨k, hclock⟩
    · have htime : (step ⟨s, c⟩).state.time = s.time :=
        congrArg (fun m : Machine => m.state.time) (hblind s.distances s.time)
      rw [htime]
      exact hblind distances _
    · have hstep : step ⟨s, c⟩ = ⟨s.shift s.distances s.time.next,
          .value (.number (seconds s.time.reading)) k⟩ := hclock s.distances s.time
      have hread : (⟨readings, s.time.asked⟩ : Clock).reading = s.time.reading := by
        rw [hstep] at ht
        exact ht (Nat.lt_succ_self _)
      have hother := hclock distances ⟨readings, s.time.asked⟩
      rw [hread] at hother
      rw [hstep]
      exact hother

theorem run_last (m : Machine) (n : Nat) : m.run (n + 1) = (m.run n).step := by
  rw [run_add, run_succ, run_zero]

/-- With other distances, by which each name is found in the same frame, a run does the same step by
step. The clock must read the same, too, whenever the run asks for it. -/
theorem run_shift {m : Machine} {distances : Std.HashMap NodeId Nat} {readings : Nat → Int64}
    (hr : ∀ n time id name, (m.run n).control.reference? = some (id, name) →
      ((m.run n).state.shift distances time).holder? id name.lexeme =
        (m.run n).state.holder? id name.lexeme) {n : Nat}
    (ht : ∀ i, m.state.time.asked ≤ i → i < (m.run n).state.time.asked →
      readings i = m.state.time.readings i) :
    (m.shift distances ⟨readings, m.state.time.asked⟩).run n =
      (m.run n).shift distances ⟨readings, (m.run n).state.time.asked⟩ := by
  induction n with
  | zero => rfl
  | succ n ih =>
    rw [run_last] at ht
    have hrun := ih fun i hle hlt => ht i hle (Nat.lt_of_lt_of_le hlt (asked_le_step _))
    have hread : (m.run n).state.time.asked < (m.run n).step.state.time.asked →
        readings (m.run n).state.time.asked = (m.run n).state.time.reading := fun hlt => by
      rw [Clock.reading, readings_run]
      exact ht _ (asked_le_run m n) hlt
    rw [run_last, run_last, hrun]
    exact step_shift (hr n _) hread

/-- What the clock reads is nothing to a run but when the run asks for it. -/
theorem run_withReadings {m : Machine} {readings : Nat → Int64} {n : Nat}
    (ht : ∀ i, m.state.time.asked ≤ i → i < (m.run n).state.time.asked →
      readings i = m.state.time.readings i) :
    (m.withReadings readings).run n = (m.run n).withReadings readings := by
  have hr : ∀ n time id name, (m.run n).control.reference? = some (id, name) →
      ((m.run n).state.shift m.state.distances time).holder? id name.lexeme =
        (m.run n).state.holder? id name.lexeme := by
    intro n time id name _
    rw [← distances_run m n]
    rfl
  have hrun := run_shift hr ht
  rw [← distances_run m n] at hrun
  have hstart : m.shift (m.run n).state.distances ⟨readings, m.state.time.asked⟩ =
      m.withReadings readings := by rw [distances_run]; rfl
  rw [hstart] at hrun
  exact hrun

end Machine

end Lox
