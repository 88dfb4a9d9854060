/-
What a step leaves on the stack. A step takes at most one waiting computation off
the stack, whatever it puts on it, so what lies under that one stays where it is
(`Over.step`). A call is over as soon as nothing is left on top of what waits for
its value, and then what lay there last has been served (`Returns.serves`).
-/
import Lox.Machine.Step
import Lox.Proofs.Machine.Oblivious
import Mathlib.Data.Nat.Find

namespace Lox

/-- It is not a program that waits. -/
def Waiting.Inner {a b : Yield} : Waiting a b → Prop
  | .program _ => False
  | _ => True

/-- The first stack lies under the second one, with no program on top of it. -/
inductive Stack.Under {b : Yield} (k₀ : Stack b) : {a : Yield} → Stack a → Prop
  | refl : Under k₀ k₀
  | push {a c : Yield} {w : Waiting a c} {k : Stack c} : w.Inner → Under k₀ k →
    Under k₀ (.push w k)

/-- The stack lies under all that the machine has to do. -/
def Control.Over {b : Yield} (k₀ : Stack b) : Control → Prop
  | .eval _ k | .value _ k => k₀.Under k
  | .exec _ k | .flow _ k => k₀.Under k
  | .raise _ k => k₀.Under k

/-- The machine serves what lies on top of a stack, or takes it off because of an error. -/
inductive Control.Serves {b : Yield} (k : Stack b) : {a : Yield} → Waiting a b → Control → Prop
  | value {w : Waiting .value b} (v : Value) : Serves k w (.value v (.push w k))
  | flow {w : Waiting .flow b} (f : Flow) : Serves k w (.flow f (.push w k))
  | raise {a : Yield} {w : Waiting a b} (e : RuntimeError) : Serves k w (.raise e (.push w k))

namespace Stack

/-- How many computations wait. -/
def height : {a : Yield} → Stack a → Nat
  | _, .bottom => 0
  | _, .push _ k => k.height + 1

theorem Under.trans {a b c : Yield} {k₀ : Stack a} {k₁ : Stack b} {k : Stack c}
    (h : k₀.Under k₁) (h' : k₁.Under k) : k₀.Under k := by
  induction h' with
  | refl => exact h
  | push hw _ ih => exact .push hw ih

theorem Under.height {a b : Yield} {k₀ : Stack a} {k : Stack b} (h : k₀.Under k) :
    k₀.height ≤ k.height := by
  induction h with
  | refl => exact Nat.le_refl _
  | push _ _ ih => exact Nat.le_succ_of_le ih

end Stack

theorem Control.Over.under {a b : Yield} {k₀ : Stack a} {k : Stack b} {c : Control}
    (h : c.Over k) (hk : k₀.Under k) : c.Over k₀ := by
  cases c <;> exact hk.trans h

namespace Machine

variable {s : State}

/-! ## Steps -/

theorem over_ofResult (r : Except RuntimeError Value) (k : Stack .value) :
    (Control.ofResult r k).Over k := by
  cases r <;> exact .refl

theorem over_assign (id : NodeId) (name : Token) (v : Value) (k : Stack .value) :
    (assign s id name v k).control.Over k := by
  unfold assign
  split <;> exact .refl

theorem over_property (o : Instance) (name : Token) (k : Stack .value) :
    (property s o name k).control.Over k := by
  unfold property
  split
  · exact .refl
  · split <;> exact .refl

theorem over_enterBody (f : Closure) (args : List Value) (k : Stack .value) :
    (enterBody s f args k).control.Over (.push (.body f) k) :=
  .push trivial .refl

theorem over_callNative (f : Native) (args : List Value) (k : Stack .value) :
    (callNative s f args k).control.Over k := by
  unfold callNative
  split
  exact .refl

theorem over_instantiate (c : Class) (args : List Value) (k : Stack .value) :
    (instantiate s c args k).control.Over k := by
  unfold instantiate
  dsimp only
  split
  · exact .refl
  · exact (over_enterBody _ _ _).under (.push trivial (.push trivial .refl))

theorem over_call (callee : Value) (paren : Token) (args : List Value) (k : Stack .value) :
    (call s callee paren args k).control.Over k := by
  obtain ⟨e, h⟩ | ⟨f, -, -, -, h⟩ := call_cases s callee paren args k
  · rw [h]
    exact .refl
  · rw [h]
    cases f with
    | native f => exact over_callNative f args k
    | closure f => exact (over_enterBody f args k).under (.push trivial .refl)
    | «class» c => exact over_instantiate c args k

theorem over_nextArgument (callee : Value) (paren : Token) (done : List Value) (rest : List Expr)
    (k : Stack .value) : (nextArgument s callee paren done rest k).control.Over k := by
  cases rest with
  | nil => exact over_call callee paren done.reverse k
  | cons e rest => exact .push trivial .refl

theorem over_eval (e : Expr) (k : Stack .value) : (eval s k e).control.Over k := by
  cases e with
  | literal | grouping => exact .refl
  | «variable» | this => exact over_ofResult _ k
  | _ => exact .push trivial .refl

theorem over_exec (stmt : Stmt) (k : Stack .flow) : (exec s k stmt).control.Over k := by
  cases stmt with
  | var name init =>
    cases init with
    | none => exact .refl
    | some e => exact .push trivial .refl
  | ret keyword value =>
    cases value with
    | none => exact .refl
    | some e => exact .push trivial .refl
  | function | «class» => exact .refl
  | _ => exact .push trivial .refl

theorem over_serveValue (v : Value) {b : Yield} (w : Waiting .value b) (k : Stack b) :
    (serveValue s v w k).control.Over k := by
  cases w with
  | unary | binaryRight => exact over_ofResult _ k
  | logical op right => rw [serveValue]; split <;> exact .refl
  | assign id name => exact over_assign id name v k
  | callee paren args => exact over_nextArgument v paren [] args k
  | argument callee paren done rest => exact over_nextArgument callee paren (v :: done) rest k
  | property name =>
    cases v with
    | object o => exact over_property o name k
    | _ => exact .refl
  | fieldObject name e =>
    cases v with
    | object o => exact .push trivial .refl
    | _ => exact .refl
  | branch thenPart elsePart =>
    cases elsePart with
    | none | some => rw [serveValue]; split <;> exact .refl
  | loopTest test body =>
    rw [serveValue]
    split
    · exact .push trivial .refl
    · exact .refl
  | binaryLeft => exact .push trivial .refl
  | _ => exact .refl

theorem over_serveFlow (f : Flow) {b : Yield} {w : Waiting .flow b} (hw : w.Inner) (k : Stack b) :
    (serveFlow s f w k).control.Over k := by
  cases w with
  | block rest around =>
    cases f with
    | normal =>
      cases rest with
      | nil => exact .refl
      | cons next rest => exact .push trivial .refl
    | returned v => exact .refl
  | loopBody test body =>
    cases f with
    | normal => exact .push trivial .refl
    | returned v => exact .refl
  | body f => exact over_ofResult _ k
  | program rest => exact hw.elim

/-- What lies under all that the machine has to do stays there until what is on top of it is
served. -/
theorem over_step {a b : Yield} {w : Waiting a b} {k : Stack b} {m : Machine}
    (h : m.control.Over (.push w k)) :
    m.step.control.Over (.push w k) ∨ m.control.Serves k w := by
  obtain ⟨s, c⟩ := m
  cases c with
  | eval e k' => exact .inl ((over_eval e k').under h)
  | exec stmt k' => exact .inl ((over_exec stmt k').under h)
  | value v k' =>
    cases h with
    | refl => exact .inr (.value v)
    | push _ h => exact .inl ((over_serveValue v _ _).under h)
  | flow f k' =>
    cases h with
    | refl => exact .inr (.flow f)
    | push hw h => exact .inl ((over_serveFlow f hw _).under h)
  | raise e k' =>
    cases h with
    | refl => exact .inr (.raise e)
    | push _ h => exact .inl h

end Machine

/-! ## Calls -/

/-- Something is left to do on top of the stack. -/
def Control.Beyond {b : Yield} (k : Stack b) (c : Control) : Prop :=
  ∃ a, ∃ w : Waiting a b, c.Over (.push w k)

theorem Control.not_beyond_value (v : Value) (k : Stack .value) : ¬ (Control.value v k).Beyond k :=
  fun ⟨_, _, h⟩ => Nat.not_succ_le_self _ h.height

theorem Control.not_beyond_raise {a : Yield} (e : RuntimeError) (k : Stack a) :
    ¬ (Control.raise e k).Beyond k :=
  fun ⟨_, _, h⟩ => Nat.not_succ_le_self _ h.height

/-- After `n` steps for the first time nothing is left to do on top of the stack. -/
structure Machine.Returns {b : Yield} (k : Stack b) (n : Nat) (m : Machine) : Prop where
  before : ∀ i < n, (m.run i).control.Beyond k
  after : ¬ (m.run n).control.Beyond k

namespace Machine

variable {a b : Yield} {w : Waiting a b} {k : Stack b} {m : Machine} {n : Nat}

theorem Returns.step (h : m.Returns k (n + 1)) : m.step.Returns k n := by
  refine ⟨fun i hi => ?_, ?_⟩
  · rw [← run_succ]
    exact h.before (i + 1) (Nat.succ_lt_succ hi)
  · rw [← run_succ]
    exact h.after

/-- Where nothing is left to do, there was a first time. -/
theorem exists_returns (h : ¬ (m.run n).control.Beyond k) : ∃ i ≤ n, m.Returns k i := by
  classical
  have hex : ∃ i, ¬ (m.run i).control.Beyond k := ⟨n, h⟩
  exact ⟨Nat.find hex, Nat.find_min' hex h,
    fun _ hj => not_not.1 (Nat.find_min hex hj), Nat.find_spec hex⟩

/-- When nothing is left on top of a stack, what lay there has been served before. -/
theorem Returns.served {i : Nat} (h : m.Returns k n) (hi : i ≤ n)
    (hover : (m.run i).control.Over (.push w k)) :
    ∃ j, i ≤ j ∧ j < n ∧ (m.run j).control.Serves k w := by
  induction hi using Nat.decreasingInduction with
  | self => exact absurd ⟨a, w, hover⟩ h.after
  | of_succ i hi ih =>
    rcases over_step hover with hover | hserves
    · rw [← run_last] at hover
      obtain ⟨j, hj, hlt, hserves⟩ := ih hover
      exact ⟨j, Nat.le_of_succ_le hj, hlt, hserves⟩
    · exact ⟨i, Nat.le_refl i, hi, hserves⟩

/-- The first step that leaves nothing on top of the stack is the last one. -/
theorem Returns.eq_succ {i : Nat} (h : m.Returns k n) (hi : i < n)
    (hlast : ¬ (m.run i).step.control.Beyond k) : n = i + 1 := by
  rw [← run_last] at hlast
  by_contra hne
  exact hlast (h.before (i + 1) (Nat.lt_of_le_of_ne hi (Ne.symm hne)))

/-- When nothing is left on top of a stack, what lay there last has been served, provided that then
nothing takes its place. -/
theorem Returns.serves (h : m.Returns k n) (hover : m.control.Over (.push w k))
    (hlast : ∀ m : Machine, m.control.Serves k w → ¬ m.step.control.Beyond k) :
    ∃ i, n = i + 1 ∧ (m.run i).control.Serves k w := by
  obtain ⟨i, -, hi, hserves⟩ := h.served (Nat.zero_le n) hover
  exact ⟨i, h.eq_succ hi (hlast _ hserves), hserves⟩

end Machine

end Lox
