/-
The course of a session, step by step. A session is between chunks or in the
midst of one (`Phase`), and each phase that it comes to has a past
(`Reached.past`). What was made in one phase is still there in all later ones, and
no frame has got another receiver meanwhile (`Leads.keeps`).
-/
import Lox.Proofs.Session.Known
import Mathlib.Logic.Relation

namespace Lox

/-- Where a session is: between chunks, or in the midst of one. Then the session holds the numbers
with which the next chunk goes on. -/
inductive Phase
  | idle (s : Session)
  | busy (s : Session) (m : Machine)

namespace Phase

/-- One step of a session: a chunk is rejected, is accepted, takes a step or has ended. -/
inductive Next : Phase → Phase → Prop
  | rejected {s source errors} : (s.load source).2 = .rejected errors →
    Next (.idle s) (.idle (s.load source).1)
  | start {s source m} : (s.load source).2 = .ready m →
    Next (.idle s) (.busy (s.load source).1 m)
  | step {s m} : Next (.busy s m) (.busy s m.step)
  | ended {s m} : m.isDone = true →
    Next (.busy s m) (.idle { s with state := { m.state with output := #[] } })

/-- The session comes from the first phase to the second one. -/
def Leads : Phase → Phase → Prop := Relation.ReflTransGen Next

/-- A session comes to the phase, with a clock that reads this. -/
def Reached (readings : Nat → Int64) (p : Phase) : Prop := (Phase.idle (.initial readings)).Leads p

/-- The accepted chunks up to the phase, the latest first. -/
inductive Behind (readings : Nat → Int64) : Phase → List Chunk → Prop
  | idle {s chunks} : Session.Past readings s chunks → Behind readings (.idle s) chunks
  | busy {s chunks source m} (n : Nat) : Session.Past readings s chunks →
    (s.load source).2 = .ready m →
    Behind readings (.busy (s.load source).1 (m.run n)) (s.chunk source :: chunks)

def store : Phase → Store
  | .idle s => s.state.store
  | .busy _ m => m.state.store

/-- The value exists in this phase. -/
def Holds : Phase → Value → Prop
  | .idle s, v => s.state.store.Holds v
  | .busy _ m, v => m.Holds v

variable {readings : Nat → Int64} {p q : Phase} {s : Session} {m : Machine}

theorem leads_run (s : Session) (m : Machine) (n : Nat) :
    (Phase.busy s m).Leads (.busy s (m.run n)) := by
  induction n with
  | zero => exact .refl
  | succ n ih =>
    rw [Machine.run_last]
    exact ih.tail .step

/-- A session that runs a chunk comes from one phase between chunks to another one. -/
theorem leads_of_run {s' : Session} {fuel : Nat} {source : List UInt8} {report : Report}
    (h : s.run fuel source = some (report, s')) : (Phase.idle s).Leads (.idle s') := by
  cases hl : (s.load source).2 with
  | rejected errors =>
    rw [Session.run_of_rejected hl] at h
    obtain ⟨-, rfl⟩ := Prod.mk.inj (Option.some.inj h)
    exact .single (.rejected hl)
  | ready m =>
    obtain ⟨o, ho, -, rfl⟩ := Session.ended_of_run hl h
    have hdone : (m.run fuel).isDone = true := by rw [Machine.isDone, ho]; rfl
    rw [← (Session.load_ready hl).2.2.1]
    exact .trans (.head (.start hl) (leads_run _ m fuel)) (.single (.ended hdone))

/-! ## The past of a phase -/

theorem Next.behind {chunks : List Chunk} (h : p.Next q) (hp : p.Behind readings chunks) :
    ∃ chunks', q.Behind readings chunks' := by
  cases h with
  | rejected hl =>
    cases hp with
    | idle hp => exact ⟨_, .idle (hp.rejected hl)⟩
  | start hl =>
    cases hp with
    | idle hp => exact ⟨_, .busy 0 hp hl⟩
  | step =>
    cases hp with
    | busy n hp hl =>
      rw [← Machine.run_last]
      exact ⟨_, .busy (n + 1) hp hl⟩
  | ended hdone =>
    cases hp with
    | @busy s chunks source m n hp hl =>
      obtain ⟨o, ho⟩ := Option.isSome_iff_exists.1 hdone
      have hrun := Session.run_of_ready hl n
      rw [ho, Option.map_some, ← (Session.load_ready hl).2.2.1] at hrun
      exact ⟨_, .idle (hp.ended n hl hrun)⟩

theorem Reached.behind (h : p.Reached readings) : ∃ chunks, p.Behind readings chunks := by
  induction h with
  | refl => exact ⟨[], .idle .initial⟩
  | tail _ hn ih =>
    obtain ⟨chunks, hp⟩ := ih
    exact hn.behind hp

/-- In the midst of a chunk the machine of a session is in a moment of it. -/
theorem Reached.moment (h : (Phase.busy s m).Reached readings) :
    ∃ chunks, Session.Moment readings m chunks := by
  obtain ⟨chunks, hp⟩ := h.behind
  cases hp with
  | busy n hp hl => exact ⟨_, .intro n hp hl⟩

/-! ## What lasts -/

theorem idle_ne_busy {s s' : Session} {m : Machine} : Phase.idle s ≠ .busy s' m := nofun

/-- Only the steps of its machines do something to what a session holds. -/
theorem Next.step_or_idle (h : p.Next q) :
    (∃ s m, p = .busy s m ∧ q = .busy s m.step) ∨
    q.store = p.store ∧ (∀ s m, p = .busy s m → m.isDone = true) ∧ ∀ v, q.Holds v → p.Holds v := by
  cases h with
  | rejected hl =>
    refine .inr ?_
    rcases Session.load_rejected hl with hs | ⟨-, hs⟩
    · rw [hs]
      exact ⟨rfl, fun _ _ hp => absurd hp idle_ne_busy, fun v hv => hv⟩
    · rw [hs]
      exact ⟨rfl, fun _ _ hp => absurd hp idle_ne_busy, fun v hv => hv⟩
  | start hl =>
    refine .inr ?_
    obtain ⟨-, -, -, rfl⟩ := Session.load_ready hl
    exact ⟨rfl, fun _ _ hp => absurd hp idle_ne_busy, fun v hv => hv.resolve_right nofun⟩
  | step => exact .inl ⟨_, _, rfl, rfl⟩
  | ended hdone =>
    refine .inr ⟨rfl, fun s m hp => ?_, fun v hv => .inl hv⟩
    cases hp
    exact hdone

theorem Next.keeps (hp : p.Reached readings) (h : p.Next q) : p.store.Keeps q.store := by
  rcases h.step_or_idle with ⟨s, m, rfl, rfl⟩ | ⟨hs, -, -⟩
  · obtain ⟨chunks, hm⟩ := hp.moment
    exact (hm.known.step (lawful_visitedIn hm.accepted)).keeps
  · rw [hs]
    exact .refl _

/-- What is there now is there later. -/
theorem Leads.keeps (hp : p.Reached readings) (h : p.Leads q) : p.store.Keeps q.store := by
  induction h with
  | refl => exact .refl _
  | tail hl hn ih => exact ih.trans (hn.keeps (.trans hp hl))

/-! ## The values of a phase -/

/-- A value that exists existed before, or is made by a step of a machine. -/
theorem Next.holds (h : p.Next q) {v : Value} (hv : q.Holds v) :
    p.Holds v ∨ ∃ s m, p = .busy s m ∧ q = .busy s m.step ∧ m.Makes v := by
  rcases h.step_or_idle with ⟨s, m, rfl, rfl⟩ | ⟨-, -, hq⟩
  · rcases Machine.holds_step hv with hv | hv
    · exact .inl hv
    · exact .inr ⟨s, m, rfl, rfl, hv⟩
  · exact .inl (hq v hv)

/-- At first there is nothing but the clock. -/
theorem holds_initial {v : Value} (h : (Phase.idle (.initial readings)).Holds v) :
    v = .callable (.native clock) :=
  Store.holds_initial h

/-- Each object that exists has been made. -/
theorem Reached.object (h : p.Reached readings) {o : Instance} (ho : p.Holds (.object o)) :
    o.id < p.store.objects.size := by
  obtain ⟨chunks, hp⟩ := h.behind
  cases hp with
  | idle hp => exact (hp.known.holds ho).1
  | busy n hp hl => exact ((Session.Moment.intro n hp hl).known.all.holds ho).1

end Phase

end Lox
