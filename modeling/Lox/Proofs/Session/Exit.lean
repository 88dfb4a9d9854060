/-
Where runs end. However a statement or an expression ends, it leaves the
environment and the depth as it found them, and so a session is outside of all
blocks and calls after every chunk, also after one that failed in the middle of
a call.
-/
import Lox.Proofs.Machine.Exit
import Lox.Proofs.Session.Names

namespace Lox

/-- The machine starts to execute a statement or to evaluate an expression in a state. -/
def Machine.Starts (s : State) (m : Machine) : Prop :=
  (∃ stmt, m = .ofStmt s stmt) ∨ ∃ e, m = .ofExpr s e

theorem Machine.Starts.rests {s : State} {m : Machine} (h : m.Starts s) (hd : s.depth ≤ maxDepth) :
    m.Rests s.env s.depth := by
  obtain ⟨stmt, rfl⟩ | ⟨e, rfl⟩ := h
  · exact ⟨rfl, rfl, hd⟩
  · exact ⟨rfl, rfl, hd⟩

namespace Session

/-- Between chunks a session is outside of all blocks and calls. -/
theorem Past.back {readings : Nat → Int64} {s : Session} {chunks : List Chunk}
    (h : Past readings s chunks) : s.state.env = globals ∧ s.state.depth = 0 := by
  induction h with
  | initial => exact ⟨rfl, rfl⟩
  | rejected _ hl ih =>
    rcases load_rejected hl with hs | ⟨-, hs⟩
    · rw [hs]; exact ih
    · rw [hs]; exact ih
  | @ended s _ source _ _ _ fuel _ hl he ih =>
    obtain ⟨o, ho, -, rfl⟩ := ended_of_run hl he
    obtain ⟨-, -, -, rfl⟩ := load_ready hl
    have hstart : Machine.Rests globals 0
        (.ofProgram (s.resolved source).state (s.chunk source).program) :=
      ⟨ih.1, ih.2, ih.2 ▸ Nat.zero_le _⟩
    exact (hstart.run fuel).of_isDone (by rw [Machine.isDone, ho]; rfl)

/-- While a statement or an expression is carried out, the depth counts the calls that run, and there
are never more than there may be. When it ends, in whatever way, the environment and the depth are
those of its beginning. A step reports an overflow just if it calls something that can be called, with
as many arguments as it takes, when as many calls run as may. And so after every chunk, whatever became
of it, the environment is that of the globals, and no call runs. -/
theorem restored :
    (∀ (s : State) (m : Machine), s.depth ≤ maxDepth → m.Starts s → ∀ n,
      (m.run n).state.depth = s.depth + (m.run n).control.calls ∧
      (m.run n).state.depth ≤ maxDepth ∧
      ((m.run n).isDone = true → (m.run n).state.env = s.env ∧ (m.run n).state.depth = s.depth) ∧
      ((m.run n).control.fault? = none →
        ((m.run n).step.control.fault? = some .stackOverflow ↔ ∃ f args,
          (m.run n).control.calling? = some (.callable f, args) ∧ args.length = f.arity ∧
            (m.run n).state.depth = maxDepth))) ∧
    ∀ readings s chunks, Past readings s chunks → ∀ fuel source report s',
      s.run fuel source = some (report, s') → s'.state.env = globals ∧ s'.state.depth = 0 := by
  refine ⟨fun s m hd hm n => ?_, fun readings s chunks hp fuel source report s' hr => ?_⟩
  · have hrests := (hm.rests hd).run n
    obtain ⟨hdepth, hle⟩ := hrests.depth_eq
    refine ⟨hdepth, hle, hrests.of_isDone, fun hf => (Machine.overflow_step hf).trans ?_⟩
    -- With this invariant, as many calls as may run are never exceeded.
    have hfull : maxDepth ≤ (m.run n).state.depth ↔ (m.run n).state.depth = maxDepth :=
      ⟨fun h => Nat.le_antisymm hle h, fun h => h ▸ Nat.le_refl _⟩
    simp only [hfull]
  · rcases hp.run hr with hp' | hp'
    · exact hp'.back
    · exact hp'.back

/-- `fun f() { nil(); } f();`, which fails inside of the body of `f`. -/
def failedCall : List UInt8 := Utf8.encode "fun f() \x7b nil(); \x7d f();"

/-- `nil();`, which fails. -/
def failing : Stmt := .expression (.call (.literal .nil) ⟨.symbol .rightParen, ")", 1⟩ [])

theorem restored_failedCall :
    (∃ report s', (Session.initial fun _ => 0).run 17 failedCall = some (report, s') ∧
      report.status = .runtimeError ∧ s'.state.env = globals ∧ s'.state.depth = 0) ∧
    (Machine.ofStmt (.initial fun _ => 0) (.block [failing])).Starts (.initial fun _ => 0) ∧
      ((Machine.ofStmt (.initial fun _ => 0) (.block [failing])).run 8).isDone = true ∧
      ((Machine.ofStmt (.initial fun _ => 0) (.block [failing])).run 8).state.env = globals := by
  refine ⟨?_, .inl ⟨_, rfl⟩, by decide, ?_⟩
  · have hp : ((Session.initial fun _ => 0).chunk failedCall).program =
        [.function (.mk (.identifier "f" 1) [] [failing]), .expression
          (.call (.variable 0 (.identifier "f" 1)) ⟨.symbol .rightParen, ")", 1⟩ [])] := by
      with_unfolding_all rfl
    have he : (Reading.ofSource failedCall 0).errors = [] := by with_unfolding_all rfl
    have hc : ((Session.initial fun _ => 0).chunk failedCall).resolution.Clean := by
      rw [Chunk.resolution, hp]
      with_unfolding_all rfl
    have hcontrol : (onlyChunk failedCall 5).control = .eval (.variable 0 (.identifier "f" 1))
        (.push (.callee ⟨.symbol .rightParen, ")", 1⟩ []) (.push .discard
          (.push (.program []) .bottom))) := by with_unfolding_all rfl
    have hlook : (onlyChunk failedCall 5).state.lookUp 0 (.identifier "f" 1) = .ok
        (.callable (.closure ⟨1, .mk (.identifier "f" 1) [] [failing], globals, false⟩)) := by
      have hempty : ((Session.initial fun _ => 0).chunk failedCall).resolution.distances = ∅ := by
        rw [Chunk.resolution, hp]
        with_unfolding_all rfl
      refine lookUp_onlyChunk ?_ (by with_unfolding_all rfl)
      rw [hempty, Std.HashMap.getElem?_empty]
    have hrun : (onlyChunk failedCall 17).control.outcome? =
        some (.error ⟨⟨.symbol .rightParen, ")", 1⟩, .notCallable⟩) := by
      rw [show onlyChunk failedCall 17 = _ from onlyChunk_succ hcontrol hlook 11]
      with_unfolding_all rfl
    have hsession := run_of_ready (load_of_clean he hc) 17
    rw [show (Machine.run 17 _).control.outcome? = _ from hrun] at hsession
    exact ⟨_, _, hsession, rfl, restored.2 (fun _ => 0) _ [] .initial 17 failedCall _ _ hsession⟩
  · exact ((restored.1 (.initial fun _ => 0) _ (Nat.zero_le _) (.inl ⟨_, rfl⟩) 8).2.2.1
      (by decide)).1

end Session

end Lox
