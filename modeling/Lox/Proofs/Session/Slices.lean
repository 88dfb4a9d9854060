/-
Sessions whose machines run in slices. Before each slice the clock is set, and
behind it what was printed is taken away; so runs the program that tells the
time by a wall clock. All slices together are one run, for a clock that reads
what it was set to whenever it is asked (`slices_eq_run`). So sessions that are
driven in slices have a past (`Driven.past`), and in the midst of a chunk their
machines are at moments of a session (`Driven.moment`), but for what the clock
will read and for what was taken away.
-/
import Lox.Proofs.Machine.Append
import Lox.Proofs.Session.History

namespace Lox

namespace Machine

/-- Runs in slices, each of so many steps at such a time. The texts of all slices come with the
machine behind the last one. -/
def slices : List (Nat × Int64) → Machine → List String × Machine
  | [], m => ([], m)
  | (n, time) :: parts, m =>
    let (printed, m) := m.slice n time
    let (more, m) := m.slices parts
    (printed ++ more, m)

/-- The steps of all slices. -/
def stepsOf : List (Nat × Int64) → Nat
  | [] => 0
  | (n, _) :: parts => n + stepsOf parts

theorem output_slices {m : Machine} (h : m.state.output = #[]) (parts : List (Nat × Int64)) :
    (m.slices parts).2.state.output = #[] := by
  induction parts generalizing m with
  | nil => exact h
  | cons part parts ih => exact ih rfl

/-- A slice is so many steps of a run, for a clock that reads what it was set to. -/
theorem slice_eq_run {m : Machine} {n : Nat} {time : Int64} {readings : Nat → Int64}
    (hr : ∀ i, m.state.time.asked ≤ i → i < (m.slice n time).2.state.time.asked →
      readings i = time) :
    (m.withReadings readings).run n =
      ((m.slice n time).2.withReadings readings).printing (m.slice n time).1.toArray :=
  @run_withReadings (m.withReadings fun _ => time) readings n hr

theorem asked_le_slice (m : Machine) (n : Nat) (time : Int64) :
    m.state.time.asked ≤ (m.slice n time).2.state.time.asked :=
  asked_le_run (m.withReadings fun _ => time) n

/-- Texts from before a machine that has printed nothing yet are in front of what its run prints. -/
theorem run_printed {m : Machine} (h : m.state.output = #[]) (printed : Array String) (n : Nat) :
    (m.printing printed).run n = (m.run n).printing (printed ++ (m.run n).state.output) := by
  have hrun := run_printing m printed n
  rwa [h, Array.append_empty] at hrun

/-- All slices are one run, for a clock that reads what it was set to in the slice. What it has read
before is open. -/
theorem slices_eq_run {m : Machine} (h : m.state.output = #[]) (parts : List (Nat × Int64))
    (before : Nat → Int64) : ∃ readings : Nat → Int64,
    (∀ i < m.state.time.asked, readings i = before i) ∧
      (m.withReadings readings).run (stepsOf parts) =
        ((m.slices parts).2.withReadings readings).printing (m.slices parts).1.toArray := by
  induction parts generalizing m before with
  | nil => exact ⟨before, fun _ _ => rfl, congrArg (m.withReadings before).printing h⟩
  | cons part parts ih =>
    obtain ⟨n, time⟩ := part
    let printed := (m.slice n time).1
    let behind := (m.slice n time).2
    -- The slices behind the first one decide what the clock reads there, and leave the rest open.
    obtain ⟨readings, hbefore, hmore⟩ := @ih behind rfl fun i =>
      if i < m.state.time.asked then before i else time
    have hfirst : (m.withReadings readings).run n =
        (behind.withReadings readings).printing printed.toArray :=
      slice_eq_run fun i hle hlt => (hbefore i hlt).trans (if_neg (Nat.not_lt.2 hle))
    have houtput : ((behind.withReadings readings).run (stepsOf parts)).state.output =
        (behind.slices parts).1.toArray := by
      rw [hmore]
      rfl
    refine ⟨readings, fun i hi => ?_, ?_⟩
    · rw [hbefore i (Nat.lt_of_lt_of_le hi (asked_le_slice m n time)), if_pos hi]
    · calc (m.withReadings readings).run (n + stepsOf parts)
          = ((behind.withReadings readings).printing printed.toArray).run (stepsOf parts) := by
            rw [run_add, hfirst]
        _ = ((behind.withReadings readings).run (stepsOf parts)).printing
              (printed.toArray ++ (behind.slices parts).1.toArray) := by
            rw [run_printed rfl, houtput]
        _ = ((behind.slices parts).2.withReadings readings).printing
              (printed ++ (behind.slices parts).1).toArray := by
            rw [hmore, List.append_toArray]
            rfl

end Machine

/-- What was loaded, with a clock that reads something else. -/
def Loaded.withReadings : Loaded → (Nat → Int64) → Loaded
  | .rejected errors, _ => .rejected errors
  | .ready m, readings => .ready (m.withReadings readings)

namespace Session

/-- The session with a clock that reads something else. -/
def withReadings (s : Session) (readings : Nat → Int64) : Session :=
  { s with state := s.state.withReadings readings }

/-- Runs a chunk in slices; none if they are not enough. -/
def drive (parts : List (Nat × Int64)) (s : Session) (source : List UInt8) :
    Option (Report × Session) :=
  match s.load source with
  | (s, .rejected errors) => some (.rejected errors, s)
  | (s, .ready m) =>
    let (printed, m) := m.slices parts
    m.control.outcome?.map fun o => (.ended printed o, { s with state := m.state })

/-- Sessions that chunks of source have led to in slices, with the accepted ones, the latest
first. -/
inductive Driven : Session → List Chunk → Prop
  | initial (time : Int64) : Driven (.initial fun _ => time) []
  | rejected {s chunks source errors} : Driven s chunks →
    (s.load source).2 = .rejected errors → Driven (s.load source).1 chunks
  | ended {s chunks source m report s'} (parts : List (Nat × Int64)) : Driven s chunks →
    (s.load source).2 = .ready m → s.drive parts source = some (report, s') →
    Driven s' (s.chunk source :: chunks)

variable {readings readings' : Nat → Int64} {s s' : Session} {chunks : List Chunk}
  {source : List UInt8} {m : Machine} {report : Report}

/-! ## What the clock reads -/

theorem load_withReadings (s : Session) (source : List UInt8) (readings : Nat → Int64) :
    (s.withReadings readings).load source =
      ((s.load source).1.withReadings readings, (s.load source).2.withReadings readings) := by
  cases hread : (Reading.ofSource source s.nextId).failed with
  | true => simp only [load, withReadings, State.withReadings, hread, if_true, Loaded.withReadings]
  | false =>
    let r := resolve (Reading.ofSource source s.nextId).statements s.state.distances
    cases hresolve : r.failed <;>
      simp only [load, withReadings, State.withReadings, hread, hresolve, r, if_true,
        Bool.false_eq_true, if_false, Loaded.withReadings, Machine.withReadings, Machine.ofProgram]

theorem load_time (s : Session) (source : List UInt8) :
    (s.load source).1.state.time = s.state.time := by
  unfold load
  dsimp only
  split
  · rfl
  · split <;> rfl

variable {errors : List Diagnostic}

theorem rejected_withReadings (hl : (s.load source).2 = .rejected errors)
    (readings : Nat → Int64) : (s.withReadings readings).load source =
      ((s.load source).1.withReadings readings, .rejected errors) := by
  rw [load_withReadings, hl]
  rfl

theorem ready_withReadings (hl : (s.load source).2 = .ready m) (readings : Nat → Int64) :
    ((s.withReadings readings).load source).2 = .ready (m.withReadings readings) := by
  rw [load_withReadings, hl]
  rfl

theorem state_of_ready (hl : (s.load source).2 = .ready m) :
    m.state.time = s.state.time ∧ m.state.output = #[] := by
  obtain ⟨-, -, -, rfl⟩ := load_ready hl
  exact ⟨rfl, rfl⟩

/-- What the clock reads is nothing to a chunk but when the chunk asks for it. -/
theorem run_withReadings {fuel : Nat} (h : s.run fuel source = some (report, s'))
    (hr : ∀ i, s.state.time.asked ≤ i → i < s'.state.time.asked →
      readings i = s.state.time.readings i) :
    (s.withReadings readings).run fuel source = some (report, s'.withReadings readings) := by
  cases hl : (s.load source).2 with
  | rejected errors =>
    have hload := rejected_withReadings hl readings
    rw [run_of_rejected hl] at h
    cases h
    rw [run_of_rejected (congrArg Prod.snd hload), hload]
  | ready m =>
    obtain ⟨o, ho, rfl, rfl⟩ := ended_of_run hl h
    rw [← (state_of_ready hl).1] at hr
    have hrun := Machine.run_withReadings hr
    have hended : ((m.run fuel).withReadings readings).control.outcome? = some o := ho
    rw [run_of_ready (ready_withReadings hl readings), hrun, hended]
    rfl

/-- The clock reads the same all the time. -/
theorem Past.readings_eq (h : Past readings s chunks) : s.state.time.readings = readings := by
  induction h with
  | initial => rfl
  | rejected _ _ ih => rw [load_time, ih]
  | @ended s chunks source m report s' fuel _ hl hr ih =>
    obtain ⟨o, -, -, rfl⟩ := ended_of_run hl hr
    have hrun := Machine.readings_run m fuel
    rw [(state_of_ready hl).1, ih] at hrun
    exact hrun

/-- The past is the same whatever the clock will read. -/
theorem Past.withReadings (h : Past readings s chunks)
    (hr : ∀ i < s.state.time.asked, readings' i = readings i) :
    Past readings' (s.withReadings readings') chunks := by
  induction h with
  | initial => exact .initial
  | @rejected s chunks source errors _ hl ih =>
    rw [load_time] at hr
    have hload := rejected_withReadings hl readings'
    have hpast := (ih hr).rejected (congrArg Prod.snd hload)
    rwa [hload] at hpast
  | @ended s chunks source m report s' fuel hp hl hrun ih =>
    have hle : s.state.time.asked ≤ s'.state.time.asked := by
      obtain ⟨o, -, -, rfl⟩ := ended_of_run hl hrun
      rw [← (state_of_ready hl).1]
      exact Machine.asked_le_run m fuel
    have hpast := ih fun i hi => hr i (Nat.lt_of_lt_of_le hi hle)
    rw [← hp.readings_eq] at hr
    have hsame := run_withReadings hrun fun i _ hi => hr i hi
    exact hpast.ended (s := s.withReadings readings') fuel (ready_withReadings hl readings') hsame

/-! ## Driven sessions -/

/-- After a past, all slices of a chunk are one run, with the same past. -/
theorem Past.slices (hp : Past readings (s.withReadings readings) chunks)
    (hl : (s.load source).2 = .ready m) (parts : List (Nat × Int64)) : ∃ readings',
    Past readings' (s.withReadings readings') chunks ∧
      (m.withReadings readings').run (Machine.stepsOf parts) =
        ((m.slices parts).2.withReadings readings').printing (m.slices parts).1.toArray := by
  obtain ⟨htime, houtput⟩ := state_of_ready hl
  obtain ⟨readings', hbefore, hrun⟩ := Machine.slices_eq_run houtput parts readings
  rw [htime] at hbefore
  exact ⟨readings', hp.withReadings hbefore, hrun⟩

/-- In slices a chunk does what it does in one run. -/
theorem drive_eq_run (hl : (s.load source).2 = .ready m) {parts : List (Nat × Int64)}
    (hrun : (m.withReadings readings).run (Machine.stepsOf parts) =
      ((m.slices parts).2.withReadings readings).printing (m.slices parts).1.toArray) :
    (s.withReadings readings).run (Machine.stepsOf parts) source =
      (s.drive parts source).map fun (report, s') => (report, s'.withReadings readings) := by
  have hload : s.load source = (s.resolved source, .ready m) :=
    Prod.ext (load_ready hl).2.2.1 hl
  have houtput := Machine.output_slices (state_of_ready hl).2 parts
  rw [run_of_ready (ready_withReadings hl readings), hrun, drive, hload]
  dsimp only
  rw [Option.map_map]
  generalize m.slices parts = behind at houtput ⊢
  obtain ⟨printed, ⟨⟨store, env, depth, distances, output, time⟩, control⟩⟩ := behind
  cases houtput
  rfl

/-- A driven session has a past, but for what the clock will read. -/
theorem Driven.past (h : Driven s chunks) :
    ∃ readings, Past readings (s.withReadings readings) chunks := by
  induction h with
  | initial time => exact ⟨fun _ => time, .initial⟩
  | @rejected s chunks source errors _ hl ih =>
    obtain ⟨readings, hpast⟩ := ih
    have hload := rejected_withReadings hl readings
    have hnext := hpast.rejected (congrArg Prod.snd hload)
    rw [hload] at hnext
    exact ⟨readings, hnext⟩
  | @ended s chunks source m report s' parts _ hl hdrive ih =>
    obtain ⟨before, hpast⟩ := ih
    obtain ⟨readings, hagain, hslices⟩ := hpast.slices hl parts
    have hrun := drive_eq_run hl hslices
    rw [hdrive] at hrun
    exact ⟨readings,
      hagain.ended (s := s.withReadings readings) _ (ready_withReadings hl readings) hrun⟩

/-- In the midst of a chunk a driven machine is at a moment of a session, but for what the clock
will read and for what was printed in the slices before. -/
theorem Driven.moment (h : Driven s chunks) (hl : (s.load source).2 = .ready m)
    (parts : List (Nat × Int64)) : ∃ readings,
    Moment readings
      (((m.slices parts).2.withReadings readings).printing (m.slices parts).1.toArray)
      (s.chunk source :: chunks) := by
  obtain ⟨before, hpast⟩ := h.past
  obtain ⟨readings, hagain, hslices⟩ := hpast.slices hl parts
  refine ⟨readings, ?_⟩
  rw [← hslices]
  exact .intro (s := s.withReadings readings) _ hagain (ready_withReadings hl readings)

end Session

end Lox
