/-
The status of a chunk and what was reported on it agree. Each pass keeps a flag
beside its reports, and the session decides by the flags alone; as no pass sets
its flag without a report or reports without it, a status says of which sorts
the reports are (`run_agrees`).
-/
import Lox.Proofs.Session.History

namespace Lox

/-! ## What is reported before a chunk runs -/

/-- What the passes before the run report: faults of lexemes and then faults of the grammar, or
faults of names only. -/
inductive Diagnostic.Static : List Diagnostic → Prop
  | read (lex : List (Nat × LexFault)) (parse : List ParseError) :
    Static (lex.map (fun p => .lex p.1 p.2) ++ parse.map .parse)
  | resolved (errors : List ResolveError) : Static (errors.map .resolve)

/-- A runtime error is not reported before the run. -/
theorem Diagnostic.not_static_runtime (e : RuntimeError) : ¬ Static [.runtime e] := by
  generalize herrors : [Diagnostic.runtime e] = errors
  intro h
  have hmem : Diagnostic.runtime e ∈ errors := herrors ▸ List.mem_singleton_self _
  cases h with
  | read lex parse => simp at hmem
  | resolved found => simp at hmem

/-- The fault that was found, and its line. -/
def Source.Found.fault? : Source.Found → Option (Nat × LexFault)
  | .token _ => none
  | .fault line f => some (line, f)

/-- The scanner reports faults of lexemes. -/
theorem Source.errors_scan (source : List UInt8) : ∃ lex : List (Nat × LexFault),
    (scan source).errors = lex.map fun p => .lex p.1 p.2 := by
  refine ⟨(items source).filterMap fun i => i.found.fault?, ?_⟩
  rw [scan, faultsOf, List.map_filterMap]
  refine List.filterMap_congr fun i _ => ?_
  cases i.found <;> rfl

theorem Reading.static (source : List UInt8) (firstId : NodeId) :
    Diagnostic.Static (Reading.ofSource source firstId).errors := by
  obtain ⟨lex, hlex⟩ := Source.errors_scan source
  have h := Diagnostic.Static.read lex (Grammar.parse (Source.scan source).tokens firstId).errors
  rwa [← hlex] at h

namespace Session

variable {s s' : Session} {source : List UInt8}

/-- All that the passes before the run report on a chunk. Names are only looked at in a source that
could be read. -/
def staticErrors (s : Session) (source : List UInt8) : List Diagnostic :=
  (Reading.ofSource source s.nextId).errors ++
    if (Reading.ofSource source s.nextId).failed then []
    else (s.chunk source).resolution.errors.toList.map .resolve

/-- A chunk that does not run is reported with all that was found, which is not nothing. -/
theorem rejected_errors {errors : List Diagnostic} (h : (s.load source).2 = .rejected errors) :
    errors = s.staticErrors source ∧ errors ≠ [] ∧ Diagnostic.Static errors := by
  unfold load at h
  dsimp only at h
  split at h
  next hread =>
    cases h
    rw [staticErrors, if_pos hread, List.append_nil]
    exact ⟨rfl, Reading.failed_iff.1 hread, Reading.static source s.nextId⟩
  next hread =>
    split at h
    next hnames =>
      cases h
      have hne : ¬ (s.chunk source).resolution.Clean := fun hc =>
        absurd hnames (Bool.eq_false_iff.1 (resolve_failed.2 hc))
      rw [staticErrors, if_neg hread, Reading.failed_eq_false.1 (Bool.eq_false_iff.2 hread)]
      refine ⟨rfl, fun hnil => hne ?_, .resolved _⟩
      exact Array.toList_eq_nil_iff.1 (List.map_eq_nil_iff.1 hnil)
    next => cases h

/-- Nothing was reported on a chunk that may run. -/
theorem ready_errors {m : Machine} (h : (s.load source).2 = .ready m) :
    s.staticErrors source = [] := by
  obtain ⟨hread, hclean, -, -⟩ := load_ready h
  rw [staticErrors, if_neg (Bool.eq_false_iff.1 (Reading.failed_eq_false.2 hread)), hread,
    show (s.chunk source).resolution.errors = #[] from hclean]
  rfl

/-! ## What is reported on a chunk -/

/-- The report on a chunk that ran has a runtime error or none. -/
theorem Report.errors_ended (output : List String) (o : Outcome) :
    (∃ e, Report.ended output o = ⟨.runtimeError, output, [.runtime e]⟩) ∨
      Report.ended output o = ⟨.ok, output, []⟩ := by
  cases o with
  | error e => exact .inl ⟨e, rfl⟩
  | value | flow => exact .inr rfl

/-- Whatever the state of a session and the source, the status and the errors of a report fit: ok
stands for no error, a runtime error for this one error, and a static error for at least one error,
of which either all are about names or those about lexemes come before those about the grammar. The
errors are all that any of the passes has reported, and a pass has failed exactly if it has reported
something. -/
theorem run_agrees (s : Session) (source : List UInt8) :
    ((Source.scan source).failed = true ↔ (Source.scan source).errors ≠ []) ∧
    (∀ tokens firstId, (Grammar.parse tokens firstId).failed = true ↔
      (Grammar.parse tokens firstId).errors ≠ []) ∧
    (∀ program distances, (resolve program distances).failed = true ↔
      (resolve program distances).errors ≠ #[]) ∧
    ∀ fuel report s', s.run fuel source = some (report, s') →
      (report.status = .ok ↔ report.errors = []) ∧
      (report.status = .runtimeError ↔ ∃ e, report.errors = [.runtime e]) ∧
      (report.status = .staticError ↔ report.errors ≠ [] ∧ Diagnostic.Static report.errors) ∧
      (report.errors = s.staticErrors source ∨
        ∃ e, report.errors = s.staticErrors source ++ [.runtime e]) := by
  have hresolve : ∀ program distances, (resolve program distances).failed = true ↔
      (resolve program distances).errors ≠ #[] := fun program distances => by
    rw [← Bool.not_eq_false]
    exact not_congr resolve_failed
  refine ⟨Source.scan_failed source, Grammar.parse_failed, hresolve, fun fuel report s' h => ?_⟩
  cases hl : (s.load source).2 with
  | rejected errors =>
    obtain ⟨hall, hne, hstatic⟩ := rejected_errors hl
    rw [run_of_rejected hl] at h
    cases h
    have hruntime : ∀ e, errors ≠ [.runtime e] := fun e he =>
      Diagnostic.not_static_runtime e (he ▸ hstatic)
    simp [Report.rejected, hne, hstatic, hruntime, ← hall]
  | ready m =>
    obtain ⟨o, -, rfl, -⟩ := ended_of_run hl h
    rw [ready_errors hl]
    rcases Report.errors_ended (m.run fuel).state.output.toList o with ⟨e, he⟩ | he
    · simp [he, Diagnostic.not_static_runtime]
    · simp [he]

/-- `nil();`, which fails when it runs. -/
def callNil : List UInt8 := Utf8.encode "nil();"

theorem run_callNil : ∃ e, (Session.initial fun _ => 0).run 8 callNil = some
    (.ended [] (.error e), { (initial fun _ => 0).resolved callNil with
      state := { ((initial fun _ => 0).resolved callNil).state with output := #[] } }) := by
  have hp : ((initial fun _ => 0).chunk callNil).program =
      [.expression (.call (.literal .nil) ⟨.symbol .rightParen, ")", 1⟩ [])] := by
    with_unfolding_all rfl
  have he : (Reading.ofSource callNil 0).errors = [] := by with_unfolding_all rfl
  have hc : ((initial fun _ => 0).chunk callNil).resolution.Clean := by
    rw [Chunk.resolution, hp]
    with_unfolding_all rfl
  have hl := load_of_clean (s := .initial fun _ => 0) he hc
  refine ⟨⟨⟨.symbol .rightParen, ")", 1⟩, .notCallable⟩, (run_of_ready hl 8).trans ?_⟩
  rw [hp]
  with_unfolding_all rfl

theorem run_agrees_callNil : ∃ report s', (initial fun _ => 0).run 8 callNil = some (report, s') ∧
    report.status = .runtimeError ∧ ∃ e, report.errors = [.runtime e] := by
  obtain ⟨e, hrun⟩ := run_callNil
  exact ⟨_, _, hrun, rfl, ((run_agrees _ _).2.2.2 _ _ _ hrun).2.1.1 rfl⟩

end Session

end Lox
