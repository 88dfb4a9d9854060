/-
The past of a session. `Past` holds of a session that chunks of source have led
to, whatever became of each of them, and `Moment` of a machine in the midst of
one more chunk. In a session with a past, all references of the accepted chunks
have numbers of their own, and the distances that the resolver recorded for them
are still there (`Kept`); in each moment, the machine is in place with respect
to what was visited in some accepted chunk (`Moment.inPlace`).
-/
import Lox.Proofs.Machine.Oblivious
import Lox.Proofs.Machine.Preserve
import Lox.Proofs.Scope.Distance
import Lox.Proofs.Source.Items
import Lox.Proofs.Grammar.Exact
import Lox.Proofs.Grammar.Spelling
import Lox.Session

namespace Lox

/-! ## Chunks -/

/-- A program that was accepted, and the distances that were recorded before it was resolved. -/
structure Chunk where
  program : List Stmt
  distances : Std.HashMap NodeId Nat

namespace Chunk

/-- The resolver behind the program. -/
def resolution (c : Chunk) : Resolution := resolve c.program c.distances

/-- The numbers of the references. -/
def ids (c : Chunk) : List NodeId := (Site.stmts c.program).ids

/-- What is known of every program that was accepted. -/
structure Accepted (c : Chunk) : Prop where
  proper : Stmt.AllProper c.program
  clean : c.resolution.Clean
  spelled : Spelled (Stmt.allReferences c.program)
  nodup : c.ids.Nodup
  fresh : ∀ id ∈ c.ids, c.distances[id]? = none

end Chunk

/-- The site was visited in one of the chunks. -/
def VisitedIn (chunks : List Chunk) (site : Site) (v : Visit) : Prop :=
  ∃ c ∈ chunks, Visited c.program c.distances site v

theorem VisitedIn.cons {chunks : List Chunk} (c : Chunk) {site : Site} {v : Visit}
    (h : VisitedIn chunks site v) : VisitedIn (c :: chunks) site v := by
  obtain ⟨c', hc', hv⟩ := h
  exact ⟨c', List.mem_cons_of_mem c hc', hv⟩

theorem closed_visitedIn {chunks : List Chunk} (h : ∀ c ∈ chunks, c.Accepted) :
    Layout.Closed (VisitedIn chunks) := by
  refine ⟨fun hv => ?_, fun hv hp => ?_⟩
  · obtain ⟨c, hc, hv⟩ := hv
    exact hv.fine (h c hc).proper (h c hc).clean
  · obtain ⟨c, hc, hv⟩ := hv
    exact ⟨c, hc, .part hv hp⟩

namespace Session

/-- The chunk that a source is read as. -/
def chunk (s : Session) (source : List UInt8) : Chunk :=
  ⟨(Reading.ofSource source s.nextId).statements, s.state.distances⟩

/-- Sessions that chunks of source have led to while the clock reads this, with the accepted ones,
the latest first. Some were rejected, and the others have ended, well or with a runtime error. -/
inductive Past (readings : Nat → Int64) : Session → List Chunk → Prop
  | initial : Past readings (.initial readings) []
  | rejected {s chunks source errors} : Past readings s chunks →
    (s.load source).2 = .rejected errors → Past readings (s.load source).1 chunks
  | ended {s chunks source m report s'} (fuel : Nat) : Past readings s chunks →
    (s.load source).2 = .ready m → s.run fuel source = some (report, s') →
    Past readings s' (s.chunk source :: chunks)

/-- Machines in the midst of a chunk, with the accepted chunks up to it, the latest first. -/
inductive Moment (readings : Nat → Int64) : Machine → List Chunk → Prop
  | intro {s chunks source m} (n : Nat) : Past readings s chunks → (s.load source).2 = .ready m →
    Moment readings (m.run n) (s.chunk source :: chunks)

/-- A rejected chunk does nothing but count the numbers of its nodes. -/
theorem run_of_rejected {s : Session} {source : List UInt8} {errors : List Diagnostic}
    (h : (s.load source).2 = .rejected errors) (fuel : Nat) :
    s.run fuel source = some (.rejected errors, (s.load source).1) := by
  have hload : s.load source = ((s.load source).1, .rejected errors) := Prod.ext rfl h
  rw [Session.run, hload]

/-- Every chunk that has run to its end is past. -/
theorem Past.run {readings : Nat → Int64} {s s' : Session} {chunks : List Chunk}
    {source : List UInt8} {fuel : Nat} {report : Report} (h : Past readings s chunks)
    (hr : s.run fuel source = some (report, s')) :
    Past readings s' chunks ∨ Past readings s' (s.chunk source :: chunks) := by
  cases hl : (s.load source).2 with
  | rejected errors =>
    rw [run_of_rejected hl] at hr
    obtain ⟨-, rfl⟩ := Prod.mk.inj (Option.some.inj hr)
    exact .inl (h.rejected hl)
  | ready m => exact .inr (h.ended fuel hl hr)

end Session

/-! ## Loading -/

/-- The numbers of a reading follow those before it, whatever was wrong with it. -/
theorem Reading.le_nextId (source : List UInt8) (firstId : NodeId) :
    firstId ≤ (Reading.ofSource source firstId).nextId :=
  Grammar.le_nextId_parse _ _

/-- A source could not be read exactly if something was reported. -/
theorem Reading.failed_iff {source : List UInt8} {firstId : NodeId} :
    (Reading.ofSource source firstId).failed = true ↔
      (Reading.ofSource source firstId).errors ≠ [] := by
  simp only [failed, errors, ofSource, Bool.or_eq_true, Source.scan_failed, Grammar.parse_failed,
    ne_eq, List.append_eq_nil_iff, List.map_eq_nil_iff]
  exact not_and_or.symm

theorem Reading.failed_eq_false {source : List UInt8} {firstId : NodeId} :
    (Reading.ofSource source firstId).failed = false ↔
      (Reading.ofSource source firstId).errors = [] := by
  rw [← Bool.not_eq_true, failed_iff, not_not]

/-- A source that is read without an error is a program as the proofs about names need it. -/
theorem Reading.sound {source : List UInt8} {firstId : NodeId}
    (h : (Reading.ofSource source firstId).errors = []) :
    Stmt.AllProper (Reading.ofSource source firstId).statements ∧
      Spelled (Stmt.allReferences (Reading.ofSource source firstId).statements) ∧
      Grammar.Span firstId (Reading.ofSource source firstId).nextId
        (Stmt.allReferences (Reading.ofSource source firstId).statements) := by
  have hparse : (Grammar.parse (Source.scan source).1 firstId).errors = [] :=
    List.map_eq_nil_iff.1 (List.append_eq_nil_iff.1 h).2
  obtain ⟨hp, -, hspan⟩ := Grammar.parse_sound hparse
  have hbody : ∀ t ∈ Grammar.bodyOf (Source.scan source).1, WellSpelled t := fun t ht =>
    Source.wellSpelled_scan t ((List.takeWhile_sublist _).subset ht)
  obtain ⟨hproper, hspelled⟩ := Ebnf.wellFormed_declarations hp hbody
  exact ⟨hproper, hspelled, hspan⟩

namespace Session

/-- The session behind a chunk that was resolved. -/
def resolved (s : Session) (source : List UInt8) : Session :=
  ⟨{ s.state with distances := (s.chunk source).resolution.distances, output := #[] },
    (Reading.ofSource source s.nextId).nextId⟩

/-- A chunk with an error in it stops before it is resolved or behind that. -/
theorem load_rejected {s : Session} {source : List UInt8} {errors : List Diagnostic}
    (h : (s.load source).2 = .rejected errors) :
    (s.load source).1 = { s with nextId := (Reading.ofSource source s.nextId).nextId } ∨
      (Reading.ofSource source s.nextId).errors = [] ∧ (s.load source).1 = s.resolved source := by
  unfold load at h ⊢
  dsimp only at h ⊢
  split at h
  next he => exact .inl (by rw [if_pos he])
  next he =>
    rw [if_neg he]
    split at h
    next hr =>
      exact .inr ⟨Reading.failed_eq_false.1 (Bool.eq_false_iff.2 he), by rw [if_pos hr]; rfl⟩
    · cases h

/-- A chunk that may run was read and resolved without an error. -/
theorem load_ready {s : Session} {source : List UInt8} {m : Machine}
    (h : (s.load source).2 = .ready m) :
    (Reading.ofSource source s.nextId).errors = [] ∧ (s.chunk source).resolution.Clean ∧
      (s.load source).1 = s.resolved source ∧
      m = .ofProgram (s.resolved source).state (s.chunk source).program := by
  unfold load at h ⊢
  dsimp only at h ⊢
  split at h
  next he => cases h
  next he =>
    split at h
    next hr => cases h
    next hr =>
      rw [if_neg he, if_neg hr]
      exact ⟨Reading.failed_eq_false.1 (Bool.eq_false_iff.2 he),
        resolve_failed.1 (Bool.eq_false_iff.2 hr), rfl, (Loaded.ready.inj h).symm⟩

/-- A chunk that is read and resolved without an error may run. -/
theorem load_of_clean {s : Session} {source : List UInt8}
    (he : (Reading.ofSource source s.nextId).errors = [])
    (hc : (s.chunk source).resolution.Clean) :
    (s.load source).2 = .ready (.ofProgram (s.resolved source).state (s.chunk source).program) := by
  have hread := Bool.eq_false_iff.1 (Reading.failed_eq_false.2 he)
  have hr : ¬ (resolve (Reading.ofSource source s.nextId).statements s.state.distances).failed =
      true := Bool.eq_false_iff.1 (resolve_failed.2 hc)
  unfold load
  dsimp only
  rw [if_neg hread, if_neg hr]
  rfl

/-- A chunk that may run has run when its machine has nothing left to do. -/
theorem run_of_ready {s : Session} {source : List UInt8} {m : Machine}
    (h : (s.load source).2 = .ready m) (fuel : Nat) :
    s.run fuel source = (m.run fuel).control.outcome?.map fun o =>
      (.ended (m.run fuel).state.output.toList o,
        { s.resolved source with state := { (m.run fuel).state with output := #[] } }) := by
  have hload : s.load source = (s.resolved source, .ready m) := Prod.ext (load_ready h).2.2.1 h
  unfold Session.run
  rw [hload]

/-- A chunk that has run has ended, and leaves the state at its end. -/
theorem ended_of_run {s s' : Session} {source : List UInt8} {m : Machine} {fuel : Nat}
    {report : Report} (h : (s.load source).2 = .ready m)
    (hr : s.run fuel source = some (report, s')) : ∃ o,
    (m.run fuel).control.outcome? = some o ∧
      report = .ended (m.run fuel).state.output.toList o ∧
      s' = { s.resolved source with state := { (m.run fuel).state with output := #[] } } := by
  rw [run_of_ready h] at hr
  obtain ⟨o, ho, hpair⟩ := Option.map_eq_some_iff.1 hr
  obtain ⟨hreport, hs⟩ := Prod.mk.inj hpair
  exact ⟨o, ho, hreport.symm, hs.symm⟩

/-! ## The invariant of a session -/

/-- What is known of a session with the accepted chunks so far. -/
structure Kept (s : Session) (chunks : List Chunk) : Prop where
  accepted : ∀ c ∈ chunks, c.Accepted
  below : ∀ c ∈ chunks, ∀ id ∈ c.ids, id < s.nextId
  /-- Only numbers that were used have distances. -/
  unused : ∀ id, s.nextId ≤ id → s.state.distances[id]? = none
  /-- What was recorded for a chunk is still there. -/
  recorded : ∀ c ∈ chunks, ∀ id ∈ c.ids,
    s.state.distances[id]? = c.resolution.distances[id]?
  env : s.state.env = globals
  store : ∃ labels, Layout.OkStore ⟨VisitedIn chunks, labels⟩ s.state.store

variable {s : Session} {chunks : List Chunk} {source : List UInt8}

/-- A number that is used readings was not used before. -/
theorem chunk_ids (h : (Reading.ofSource source s.nextId).errors = []) :
    ∀ id ∈ (s.chunk source).ids,
      s.nextId ≤ id ∧ id < (Reading.ofSource source s.nextId).nextId := by
  intro id hi
  obtain ⟨ref, href, rfl⟩ := List.mem_map.1 hi
  exact (Reading.sound h).2.2.bounds ref href

theorem Kept.chunk_accepted (hk : s.Kept chunks)
    (h : (Reading.ofSource source s.nextId).errors = [])
    (hc : (s.chunk source).resolution.Clean) : (s.chunk source).Accepted := by
  obtain ⟨hproper, hspelled, hspan⟩ := Reading.sound h
  exact ⟨hproper, hc, hspelled, hspan.nodup, fun id hi => hk.unused id (chunk_ids h id hi).1⟩

/-- Resolving a chunk records nothing for the numbers of those before it. -/
theorem Kept.resolved_distances (h : (Reading.ofSource source s.nextId).errors = []) {id : NodeId}
    (hi : id < s.nextId ∨ (Reading.ofSource source s.nextId).nextId ≤ id) :
    (s.resolved source).state.distances[id]? = s.state.distances[id]? := by
  refine (Site.stmts (s.chunk source).program).resolve_distances (.start s.state.distances)
    fun hmem => ?_
  obtain ⟨hle, hlt⟩ := chunk_ids h id hmem
  rcases hi with hi | hi
  · exact absurd hi (Nat.not_lt.2 hle)
  · exact absurd hlt (Nat.not_lt.2 hi)

/-- Looking at a chunk costs a session nothing that it knows. -/
theorem Kept.resolved (hk : s.Kept chunks) (h : (Reading.ofSource source s.nextId).errors = []) :
    (s.resolved source).Kept chunks := by
  have hle := Reading.le_nextId source s.nextId
  refine ⟨hk.accepted, fun c hc id hi => Nat.lt_of_lt_of_le (hk.below c hc id hi) hle,
    fun id hi => ?_, fun c hc id hi => ?_, hk.env, hk.store⟩
  · rw [resolved_distances h (.inr hi)]
    exact hk.unused id (Nat.le_trans hle hi)
  · rw [resolved_distances h (.inl (hk.below c hc id hi))]
    exact hk.recorded c hc id hi

theorem Kept.rejected (hk : s.Kept chunks) {errors : List Diagnostic}
    (h : (s.load source).2 = .rejected errors) : (s.load source).1.Kept chunks := by
  rcases load_rejected h with hs | ⟨hread, hs⟩
  · rw [hs]
    have hle := Reading.le_nextId source s.nextId
    exact ⟨hk.accepted, fun c hc id hi => Nat.lt_of_lt_of_le (hk.below c hc id hi) hle,
      fun id hi => hk.unused id (Nat.le_trans hle hi), hk.recorded, hk.env, hk.store⟩
  · rw [hs]
    exact hk.resolved hread

/-- A store is no worse for more visits. -/
theorem okStore_mono {visits visits' : Site → Visit → Prop} {labels : List (Option Scope)}
    {store : Store} (hv : ∀ site v, visits site v → visits' site v)
    (h : Layout.OkStore ⟨visits, labels⟩ store) : Layout.OkStore ⟨visits', labels⟩ store := by
  have hl : Later 0 ⟨visits, labels⟩ store ⟨visits', labels⟩ store :=
    ⟨hv, List.prefix_rfl, fun _ _ h => h, fun _ _ _ h => h⟩
  exact ⟨h.size, h.globals, h.only, fun f name v hg => hl.value (h.vars f name v hg),
    fun o name v hg => hl.value (h.fields o name v hg)⟩

/-- An accepted chunk joins those before it. -/
theorem Kept.ready (hk : s.Kept chunks) {m : Machine} (h : (s.load source).2 = .ready m) :
    (s.resolved source).Kept (s.chunk source :: chunks) := by
  obtain ⟨hread, hclean, -, -⟩ := load_ready h
  have hr := hk.resolved hread
  obtain ⟨labels, hstore⟩ := hr.store
  refine ⟨List.forall_mem_cons.2 ⟨hk.chunk_accepted hread hclean, hr.accepted⟩,
    List.forall_mem_cons.2 ⟨fun id hi => (chunk_ids hread id hi).2, hr.below⟩, hr.unused,
    List.forall_mem_cons.2 ⟨fun _ _ => rfl, hr.recorded⟩, hr.env,
    labels, okStore_mono (fun _ _ hv => hv.cons _) hstore⟩

/-- A machine that starts an accepted chunk is in place. -/
theorem Kept.inPlace (hk : s.Kept chunks) {c : Chunk} (hc : c ∈ chunks) :
    (Machine.ofProgram s.state c.program).InPlace (VisitedIn chunks) := by
  obtain ⟨labels, hstore⟩ := hk.store
  refine ⟨labels, hstore, .top, (fun _ h => by cases h), ⟨?_, fun scope h => by cases h⟩, ?_⟩
  · rw [hk.env]
    exact .globals hstore.globals
  · rw [hk.env]
    exact .program ⟨_, ⟨c, hc, .program⟩, rfl⟩ .bottom

/-- In the middle of an accepted chunk the machine is in place and has the distances of all
chunks. -/
theorem Kept.run (hk : s.Kept chunks) {m : Machine} (h : (s.load source).2 = .ready m) (n : Nat) :
    (m.run n).InPlace (VisitedIn (s.chunk source :: chunks)) ∧
      (m.run n).state.distances = (s.resolved source).state.distances := by
  have hr := hk.ready h
  obtain ⟨-, -, -, rfl⟩ := load_ready h
  exact ⟨(hr.inPlace (List.mem_cons_self ..)).run (closed_visitedIn hr.accepted) n,
    Machine.distances_run _ n⟩

theorem env_of_outcome {G : Layout} {m : Machine} (h : m.Fits G)
    (ho : m.control.outcome?.isSome = true) : m.state.env = globals := by
  obtain ⟨state, c⟩ := m
  have bottom : ∀ {a : Yield} {store : Store} {env : Env} {p : Spot},
      (.bottom : Stack a).Fits G store env p → env = globals := fun hk => by cases hk; rfl
  cases c with
  | eval | exec => cases ho
  | value x k =>
    cases k with
    | bottom => obtain ⟨p, -, -, hk⟩ := h; exact bottom hk
    | push => cases ho
  | flow f k =>
    cases k with
    | bottom => obtain ⟨p, -, -, hk⟩ := h; exact bottom hk
    | push => cases ho
  | raise e k =>
    cases k with
    | bottom => obtain ⟨p, hk⟩ := h; exact bottom hk
    | push => cases ho

/-- A chunk that ends, well or not, leaves the session outside all scopes. -/
theorem Kept.ended (hk : s.Kept chunks) {m : Machine} (h : (s.load source).2 = .ready m)
    {fuel : Nat} {report : Report} {s' : Session} (he : s.run fuel source = some (report, s')) :
    s'.Kept (s.chunk source :: chunks) := by
  have hr := hk.ready h
  obtain ⟨⟨labels, hstore, hfits⟩, hdistances⟩ := hk.run h fuel
  obtain ⟨o, ho, -, rfl⟩ := ended_of_run h he
  have henv := env_of_outcome hfits (by rw [ho]; rfl)
  refine ⟨hr.accepted, hr.below, fun id hi => ?_, fun c hc id hi => ?_, henv, labels, hstore⟩
  · exact (congrArg (·[id]?) hdistances).trans (hr.unused id hi)
  · exact (congrArg (·[id]?) hdistances).trans (hr.recorded c hc id hi)

theorem kept_initial (readings : Nat → Int64) : (Session.initial readings).Kept [] := by
  have noChunk : ∀ {P : Chunk → Prop}, ∀ c ∈ ([] : List Chunk), P c := fun c hc => by cases hc
  refine ⟨noChunk, noChunk, fun id _ => Std.HashMap.getElem?_empty, noChunk, rfl, [none], ?_⟩
  refine ⟨rfl, rfl, fun f closing name hl => ?_, fun f name v hg => ?_, fun o name v hg => ?_⟩
  · match f, hl with
    | 0, hl => cases hl
    | f + 1, hl => cases hl
  · cases Store.holds_initial (.var hg)
    trivial
  · cases hg

theorem Past.kept {readings : Nat → Int64} (h : Past readings s chunks) : s.Kept chunks := by
  induction h with
  | initial => exact kept_initial readings
  | rejected _ hl ih => exact ih.rejected hl
  | ended _ _ hl he ih => exact ih.ended hl he

/-! ## Moments -/

variable {readings : Nat → Int64} {m : Machine}

theorem Moment.accepted (h : Moment readings m chunks) : ∀ c ∈ chunks, c.Accepted := by
  obtain ⟨n, hp, hl⟩ := h
  exact (hp.kept.ready hl).accepted

/-- What the machine does, in whatever chunk, was visited where it does it. -/
theorem Moment.inPlace (h : Moment readings m chunks) : m.InPlace (VisitedIn chunks) := by
  obtain ⟨n, hp, hl⟩ := h
  exact (hp.kept.run hl n).1

/-- The distances of all chunks are at hand. -/
theorem Moment.recorded (h : Moment readings m chunks) {c : Chunk} (hc : c ∈ chunks) {id : NodeId}
    (hi : id ∈ c.ids) : m.state.distances[id]? = c.resolution.distances[id]? := by
  obtain ⟨n, hp, hl⟩ := h
  rw [(hp.kept.run hl n).2]
  exact (hp.kept.ready hl).recorded c hc id hi

end Session

end Lox
