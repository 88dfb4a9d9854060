/-
Programs one behind the other. A run of a program that ends without an error
comes to the end of the program (`ends_of_outcome`), and up to there the same
steps are taken in front of any other program (`run_append`). So there the
machine is in the state that the first program leaves, with the second one
still to do.
-/
import Lox.Proofs.Machine.Confined
import Lox.Proofs.Machine.Over
import Mathlib.Data.Nat.Find

namespace Lox

/-! ## The program that waits -/

/-- What waits last is a program. -/
def Stack.OnProgram : {a : Yield} → Stack a → Prop
  | _, .bottom => False
  | _, .push (.program _) k => k = .bottom
  | _, .push _ k => k.OnProgram

/-- What waits last is a program, unless there is an error. -/
def Control.OnProgram : Control → Prop
  | .eval _ k | .value _ k => k.OnProgram
  | .exec _ k | .flow _ k => k.OnProgram
  | .raise _ _ => True

theorem Stack.Under.onProgram {a b : Yield} {k₀ : Stack a} {k : Stack b} (h : k₀.Under k)
    (hp : k₀.OnProgram) : k.OnProgram := by
  induction h with
  | refl => exact hp
  | @push _ _ w _ hw _ ih => cases w <;> first | exact ih | exact hw.elim

theorem Control.Over.onProgram {a : Yield} {k : Stack a} {c : Control} (h : c.Over k)
    (hk : k.OnProgram) : c.OnProgram := by
  cases c with
  | raise => trivial
  | _ => exact Stack.Under.onProgram h hk

namespace Machine

/-- What waits last is a program, unless there is an error. -/
def OnProgram (m : Machine) : Prop := m.control.OnProgram

variable {s : State}

/-- Only the end of a program leaves nothing to wait. -/
theorem OnProgram.step {m : Machine} (h : m.OnProgram) (he : m.control.atEnd = false) :
    m.step.OnProgram := by
  obtain ⟨s, c⟩ := m
  cases c with
  | eval e k => exact (over_eval e k).onProgram h
  | exec stmt k => exact (over_exec stmt k).onProgram h
  | value v k =>
    cases k with
    | bottom => exact h
    | push w k =>
      have hk : k.OnProgram := by cases w <;> exact h
      exact (over_serveValue v w k).onProgram hk
  | flow f k =>
    cases k with
    | bottom => exact h
    | push w k =>
      cases w with
      | block rest around =>
        exact (over_serveFlow f (w := .block rest around) trivial k).onProgram h
      | loopBody test body =>
        exact (over_serveFlow f (w := .loopBody test body) trivial k).onProgram h
      | body g => exact (over_serveFlow f (w := .body g) trivial k).onProgram h
      | program rest =>
        cases rest with
        | nil => cases he
        | cons next rest => exact h
  | raise e k => cases k <;> trivial

/-- A program waits until the machine has come to its end. -/
theorem OnProgram.run {m : Machine} (h : m.OnProgram) (n : Nat)
    (he : ∀ i < n, (m.run i).control.atEnd = false) : (m.run n).OnProgram := by
  induction n with
  | zero => exact h
  | succ n ih =>
    rw [run_last]
    exact (ih fun i hi => he i (Nat.lt_succ_of_lt hi)).step (he n (Nat.lt_succ_self n))

/-- With a program that waits, only an error leaves nothing to do. -/
theorem OnProgram.outcome {m : Machine} (h : m.OnProgram) {o : Outcome}
    (ho : m.control.outcome? = some o) : ∃ e, o = .error e := by
  obtain ⟨s, c⟩ := m
  cases c with
  | eval | exec => cases ho
  | value v k =>
    cases k with
    | bottom => exact absurd h id
    | push => cases ho
  | flow f k =>
    cases k with
    | bottom => exact absurd h id
    | push => cases ho
  | raise e k =>
    cases k with
    | bottom => exact ⟨e, (Option.some.inj ho).symm⟩
    | push => cases ho

/-- At the end of a program nothing else waits. -/
theorem OnProgram.atEnd {m : Machine} (h : m.OnProgram) (he : m.control.atEnd = true) :
    ∃ f, m.control = .flow f (.push (.program []) .bottom) := by
  obtain ⟨s, c⟩ := m
  cases c with
  | eval | exec | value | raise => cases he
  | flow f k =>
    cases k with
    | bottom => cases he
    | push w k =>
      cases w with
      | block | loopBody | body => cases he
      | program rest =>
        cases rest with
        | cons => cases he
        | nil =>
          obtain rfl : k = .bottom := h
          exact ⟨f, rfl⟩

/-- A run of a program that ends without an error comes to the end of the program. -/
theorem ends_of_outcome {program : List Stmt} {fuel : Nat} {o : Outcome}
    (ho : ((ofProgram s program).run fuel).control.outcome? = some o) (hne : ∀ e, o ≠ .error e) :
    ∃ n f, ((ofProgram s program).run n).control = .flow f (.push (.program []) .bottom) ∧
      (ofProgram s program).run fuel =
        ⟨((ofProgram s program).run n).state, .flow .normal .bottom⟩ ∧
      ∀ i < n, ((ofProgram s program).run i).control.atEnd = false := by
  have hstart : (ofProgram s program).OnProgram := rfl
  generalize ofProgram s program = m at *
  have hex : ∃ i, i < fuel ∧ (m.run i).control.atEnd = true := by
    by_contra hnever
    push Not at hnever
    obtain ⟨e, he⟩ := (hstart.run fuel fun i hi => Bool.eq_false_iff.2 (hnever i hi)).outcome ho
    exact hne e he
  obtain ⟨n, ⟨hlt, hend⟩, hmin⟩ := Nat.findX hex
  have hbefore : ∀ i < n, (m.run i).control.atEnd = false := fun i hi =>
    Bool.eq_false_iff.2 fun h => hmin i hi ⟨Nat.lt_trans hi hlt, h⟩
  obtain ⟨f, hf⟩ := (hstart.run n hbefore).atEnd hend
  refine ⟨n, f, hf, ?_, hbefore⟩
  -- One more step ends the run, and what is left of the fuel changes nothing.
  have hlast : m.run (n + 1) = ⟨(m.run n).state, .flow .normal .bottom⟩ := by
    rw [run_last]
    generalize m.run n = m' at hf ⊢
    obtain ⟨s', c'⟩ := m'
    obtain rfl : c' = _ := hf
    rfl
  rw [← Nat.add_sub_of_le hlt, run_add, hlast]
  exact run_of_isDone rfl _

end Machine

/-! ## Everything compared -/

/-- All cells are compared. The second machine has printed something before and has more to do
behind its program. -/
def Comparison.full (L : Likeness) (printed : Array String) (more : List Stmt) : Comparison where
  toLikeness := L
  cell _ := True
  left _ := .empty
  right _ := .empty
  printed := printed
  more := more

section

variable {L : Likeness} {printed : Array String} {more : List Stmt}

instance [L.Numbered] : (Comparison.full L printed more).toLikeness.Numbered :=
  inferInstanceAs L.Numbered

instance [L.Numbered] : Std.Refl (Value.Like (.full L printed more)) :=
  ⟨fun _ => Value.like_refl (fun f _ => Std.Refl.refl f.decl) fun _ _ => trivial⟩

theorem Store.like_refl [L.Numbered] (s : Store) : s.Like (.full L printed more) s where
  frames := rfl
  objects := rfl
  stamp := rfl
  compared _ _ := .of_mem fun _ _ => Std.Refl.refl _
  other _ h := absurd trivial h
  new _ _ := trivial

/-- The same state but for what was printed. -/
theorem State.like_printed [L.Numbered] (hL : ∀ {id id'}, L.node id id' → id' = id) (s : State) :
    ({ s with output := #[] } : State).Like (.full L printed more)
      { s with output := printed } where
  store := s.store.like_refl
  env := rfl
  within _ _ := trivial
  depth := rfl
  distances id id' h := by rw [hL h]
  output := Array.append_empty.symm
  time := rfl

theorem Closure.like_full [L.Numbered] (f : Closure) : f.Like (.full L printed more) f :=
  ⟨rfl, Std.Refl.refl f.decl, rfl, rfl, fun _ _ => trivial⟩

theorem Instance.like_full [L.Numbered] (o : Instance) : o.Like (.full L printed more) o :=
  ⟨rfl, ⟨rfl, rfl, .of_mem fun pair _ => pair.2.like_full⟩, trivial⟩

theorem Waiting.like_full [L.Numbered] {a b : Yield} (w : Waiting a b) :
    w.Like (.full L printed []) w := by
  cases w with
  | unary op => exact .unary op.like_refl
  | binaryLeft op right => exact .binaryLeft op.like_refl (Std.Refl.refl right)
  | binaryRight left op => exact .binaryRight (Std.Refl.refl left) op.like_refl
  | logical op right => exact .logical op.like_refl (Std.Refl.refl right)
  | assign id name => exact .assign (Likeness.Numbered.node_refl id) name.like_refl
  | callee paren args => exact .callee paren.like_refl (Std.Refl.refl args)
  | argument callee paren done rest =>
    exact .argument (Std.Refl.refl callee) paren.like_refl (Std.Refl.refl done)
      (Std.Refl.refl rest)
  | property name => exact .property name.like_refl
  | fieldObject name e => exact .fieldObject name.like_refl (Std.Refl.refl e)
  | fieldValue o name => exact .fieldValue o.like_full name.like_refl
  | construct o => exact .construct o.like_full
  | discard => exact .discard
  | print => exact .print
  | define name => exact .define name.like_refl
  | branch thenPart elsePart => exact .branch (Std.Refl.refl thenPart) (Std.Refl.refl elsePart)
  | loopTest test body => exact .loopTest (Std.Refl.refl test) (Std.Refl.refl body)
  | loopBody test body => exact .loopBody (Std.Refl.refl test) (Std.Refl.refl body)
  | ret => exact .ret
  | block rest around => exact .block (Std.Refl.refl rest) fun _ _ => trivial
  | body f => exact .body f.like_full
  | program rest =>
    have h : Waiting.Like (.full L printed []) (.program rest) (.program (rest ++ [])) :=
      .program (Std.Refl.refl rest)
    rwa [List.append_nil] at h

theorem Stack.like_full [L.Numbered] : ∀ {a : Yield} (k : Stack a), k.Like (.full L printed []) k
  | _, .bottom => .bottom
  | _, .push w k => .push w.like_full k.like_full

theorem Control.like_full [L.Numbered] (c : Control) : c.Like (.full L printed []) c := by
  cases c with
  | eval e k => exact .eval (Std.Refl.refl e) k.like_full
  | exec s k => exact .exec (Std.Refl.refl s) k.like_full
  | value v k => exact .value (Std.Refl.refl v) k.like_full
  | flow f k =>
    cases f with
    | normal => exact .flow .normal k.like_full
    | returned v => exact .flow (.returned (Std.Refl.refl v)) k.like_full
  | raise e k => exact .raise ⟨e.token.like_refl, rfl⟩ k.like_full

/-- States that differ in nothing are the same, but for what was printed before. -/
theorem State.Like.eq {s s' : State} (h : s.Like (.full .same printed more) s')
    (hd : s'.distances = s.distances) : s' = { s with output := printed ++ s.output } := by
  have hstore : s'.store = s.store :=
    Store.ext_contents h.store.frames h.store.objects h.store.stamp fun c _ =>
      (h.store.compared c trivial).eq (Value.Like.eq Likeness.exact_same)
  obtain ⟨store, env, depth, distances, output, time⟩ := s
  obtain ⟨store', env', depth', distances', output', time'⟩ := s'
  cases hstore
  cases h.env
  cases h.depth
  cases hd
  cases h.output
  cases h.time
  rfl

end

namespace Machine

/-- The machine with other texts printed. -/
def printing (m : Machine) (output : Array String) : Machine :=
  { m with state := { m.state with output } }

/-- What was printed before a run stays in front of what the run prints, and changes nothing
else. -/
theorem run_printing (m : Machine) (printed : Array String) (n : Nat) :
    (m.printing (printed ++ m.state.output)).run n =
      (m.run n).printing (printed ++ (m.run n).state.output) := by
  have hstate : m.state.Like (.full .same printed [])
      { m.state with output := printed ++ m.state.output } :=
    ⟨m.state.store.like_refl, rfl, fun _ _ => trivial, rfl, by rintro id _ rfl; rfl, rfl, rfl⟩
  have hstart : Alike (.full .same printed []) m (m.printing (printed ++ m.state.output)) :=
    ⟨hstate, m.control.like_full⟩
  obtain ⟨hs, hc⟩ := hstart.run n (.inl rfl)
  have hsame := hs.eq (by rw [distances_run, distances_run]; rfl)
  have hcontrol := hc.eq Likeness.exact_same rfl
  exact congrArg₂ Machine.mk hsame hcontrol

/-- A program that comes to its end leaves the same state with another program behind it. -/
theorem run_append (s : State) (first second : List Stmt) {n : Nat} {f : Flow}
    (hend : ((ofProgram s first).run n).control = .flow f (.push (.program []) .bottom))
    (hbefore : ∀ i < n, ((ofProgram s first).run i).control.atEnd = false) :
    (ofProgram s (first ++ second)).run n =
      ⟨((ofProgram s first).run n).state, .flow f (.push (.program second) .bottom)⟩ := by
  have hstate : s.Like (.full .same #[] second) s :=
    ⟨s.store.like_refl, rfl, fun _ _ => trivial, rfl, by rintro id _ rfl; rfl,
      Array.empty_append.symm, rfl⟩
  have hstart : Alike (.full .same #[] second) (ofProgram s first)
      (ofProgram s (first ++ second)) :=
    ⟨hstate, .flow .normal (.push (.program (Std.Refl.refl first)) .bottom)⟩
  obtain ⟨hs, hc⟩ := hstart.run n (.inr hbefore)
  have hd : ((ofProgram s (first ++ second)).run n).state.distances =
      ((ofProgram s first).run n).state.distances := by rw [distances_run, distances_run]; rfl
  have hsame := hs.eq hd
  rw [Array.empty_append] at hsame
  rw [hend] at hc
  generalize (ofProgram s (first ++ second)).run n = m' at *
  obtain ⟨s', c'⟩ := m'
  obtain rfl : s' = _ := hsame
  cases hc with
  | flow hf hk =>
    cases hf.eq Likeness.exact_same
    cases hk with
    | push hw hk =>
      cases hk
      cases hw with
      | program hr => cases hr; rfl

/-- How the statement before it ended is nothing to a program. -/
theorem run_program (s : State) (f : Flow) (program : List Stmt) (k : Stack .flow) (fuel : Nat) :
    (run fuel ⟨s, .flow f (.push (.program program) k)⟩).control.outcome? =
        (run fuel ⟨s, .flow .normal (.push (.program program) k)⟩).control.outcome? ∧
      (run fuel ⟨s, .flow f (.push (.program program) k)⟩).state =
        (run fuel ⟨s, .flow .normal (.push (.program program) k)⟩).state := by
  cases fuel with
  | zero => exact ⟨rfl, rfl⟩
  | succ fuel =>
    have hstep : step ⟨s, .flow f (.push (.program program) k)⟩ =
        step ⟨s, .flow .normal (.push (.program program) k)⟩ := by cases program <;> rfl
    rw [run_succ, run_succ, hstep]
    exact ⟨rfl, rfl⟩

/-- Like programs start alike in like states. -/
theorem Alike.ofProgram {L : Likeness} {printed : Array String} {s s' : State}
    (hs : s.Like (.full L printed []) s') {program program' : List Stmt}
    (hp : List.Forall₂ (Stmt.Like L) program program') :
    Alike (.full L printed []) (ofProgram s program) (ofProgram s' program') := by
  have hw : Waiting.Like (.full L printed []) (.program program) (.program (program' ++ [])) :=
    .program hp
  rw [List.append_nil] at hw
  exact ⟨hs, .flow .normal (.push hw .bottom)⟩

end Machine

/-- Runs that ended alike. -/
inductive Outcome.Like (C : Comparison) : Outcome → Outcome → Prop
  | value {v v' : Value} : v.Like C v' → Like C (.value v) (.value v')
  | flow {f f' : Flow} : f.Like C f' → Like C (.flow f) (.flow f')
  | error {e e' : RuntimeError} : e.Like C.toLikeness e' → Like C (.error e) (.error e')

theorem Control.Like.outcome? {C : Comparison} {c c' : Control} (h : c.Like C c') :
    Option.Rel (Outcome.Like C) c.outcome? c'.outcome? := by
  cases h with
  | eval | exec => exact .none
  | value hv hk =>
    cases hk with
    | bottom => exact .some (.value hv)
    | push => exact .none
  | flow hf hk =>
    cases hk with
    | bottom => exact .some (.flow hf)
    | push => exact .none
  | raise he hk =>
    cases hk with
    | bottom => exact .some (.error he)
    | push => exact .none

end Lox
