/-
A chunk with a static fault cannot be seen by any other one. All that it leaves
in the session are numbers that were used up and distances for some of them. So
a later chunk gets other numbers than it would get without it, and nothing else:
sessions that differ in this way alone (`Session.Moved`) report the same on every
chunk (`run_moved`).
-/
import Lox.Proofs.Grammar.Renumber
import Lox.Proofs.Machine.Append
import Lox.Proofs.Scope.Like
import Lox.Proofs.Session.Names
import Lox.Proofs.Session.Status

namespace Lox

variable {first : NodeId} {k : Nat}

/-! ## Distances -/

/-- For nodes that are alike the same distances are recorded. -/
def Likeness.Agree (L : Likeness) (d d' : Distances) : Prop :=
  ∀ id id', L.node id id' → d'[id']? = d[id]?

/-- Numbers that stand further on are still told apart. -/
theorem Likeness.moved_inj {id id' j j' : NodeId} (h : (moved first k).node id id')
    (hj : (moved first k).node j j') : id' = j' ↔ id = j := by
  rcases h with ⟨h, rfl⟩ | ⟨h, rfl⟩ <;> rcases hj with ⟨hj, rfl⟩ | ⟨hj, rfl⟩
  · exact Iff.rfl
  · exact ⟨fun he => absurd he (Nat.ne_of_lt (Nat.lt_of_lt_of_le h (Nat.le_add_right_of_le hj))),
      fun he => absurd he (Nat.ne_of_lt (Nat.lt_of_lt_of_le h hj))⟩
  · exact ⟨fun he => absurd he.symm (Nat.ne_of_lt (Nat.lt_of_lt_of_le hj (Nat.le_add_right_of_le h))),
      fun he => absurd he.symm (Nat.ne_of_lt (Nat.lt_of_lt_of_le hj h))⟩
  · exact Nat.add_right_cancel_iff

theorem Likeness.records_moved : (moved first k).Records (moved first k).Agree := by
  intro d d' id id' n h hid j j' hj
  rw [Std.HashMap.getElem?_insert, Std.HashMap.getElem?_insert, h j j' hj]
  simp only [beq_iff_eq, moved_inj hid hj]

/-- Distances for numbers before `first` only, and the same ones with more, but none for the numbers
that later nodes have. -/
theorem Likeness.agree_moved {d d' : Distances} (hsame : ∀ id < first, d'[id]? = d[id]?)
    (hunused : ∀ id, first ≤ id → d[id]? = none) (hunused' : ∀ id, first + k ≤ id → d'[id]? = none) :
    (moved first k).Agree d d' := by
  rintro id id' (⟨hlt, rfl⟩ | ⟨hle, rfl⟩)
  · exact hsame _ hlt
  · rw [hunused id hle, hunused' _ (Nat.add_le_add_right hle k)]

/-! ## Reports -/

theorem ResolveError.Like.eq {e e' : ResolveError} (h : e.Like (.moved first k) e') : e' = e := by
  obtain ⟨token, fault⟩ := e
  obtain ⟨token', fault'⟩ := e'
  obtain ⟨htoken, hfault⟩ := h
  cases htoken.eq_of_line id
  cases hfault
  rfl

theorem ResolveError.Like.eq_all {es es' : List ResolveError}
    (h : List.Forall₂ (ResolveError.Like (.moved first k)) es es') : es' = es := by
  induction h with
  | nil => rfl
  | cons he _ ih => rw [he.eq, ih]

/-- Outcomes that are alike are reported in the same words. -/
theorem Report.ended_moved {o o' : Outcome} (h : o.Like (.full (.moved first k) #[] []) o')
    (output : List String) : Report.ended output o' = Report.ended output o := by
  cases h with
  | value | flow => rfl
  | error he =>
    rename_i e e'
    obtain ⟨token, fault⟩ := e
    obtain ⟨token', fault'⟩ := e'
    obtain ⟨htoken, hfault⟩ := he
    cases htoken.eq_of_line id
    cases hfault
    rfl

/-! ## Reading -/

/-- A source is read as the same trees with other numbers, and with the same errors. -/
theorem Reading.ofSource_moved (source : List UInt8) {firstId : NodeId} (h : first ≤ firstId) :
    List.Forall₂ (Stmt.Like (.moved first k)) (ofSource source firstId).statements
        (ofSource source (firstId + k)).statements ∧
      (ofSource source (firstId + k)).errors = (ofSource source firstId).errors ∧
      (ofSource source (firstId + k)).failed = (ofSource source firstId).failed ∧
      (ofSource source (firstId + k)).nextId = (ofSource source firstId).nextId + k := by
  have hp := Grammar.parse_moved (Source.scan source).tokens h k
  refine ⟨hp.statements, ?_, ?_, hp.nextId⟩
  · simp only [errors, ofSource, hp.errors]
  · simp only [failed, ofSource, hp.failed]

namespace Session

/-- Sessions that differ in nothing but the numbers of nodes, of which those from `first` on stand `k`
further on. -/
structure Moved (first : NodeId) (k : Nat) (s s' : Session) : Prop where
  le : first ≤ s.nextId
  nextId : s'.nextId = s.nextId + k
  state : s.state.Like (.full (.moved first k) #[] []) s'.state

variable {s s' : Session} {source : List UInt8}

/-- A chunk is rejected for the same reasons in both sessions, or it starts alike in both. -/
inductive LoadedMoved (first : NodeId) (k : Nat) : Loaded → Loaded → Prop
  | rejected (errors) : LoadedMoved first k (.rejected errors) (.rejected errors)
  | ready {m m' : Machine} : m.Alike (.full (.moved first k) #[] []) m' →
    LoadedMoved first k (.ready m) (.ready m')

theorem load_moved (h : s.Moved first k s') (source : List UInt8) :
    (s.load source).1.Moved first k (s'.load source).1 ∧
      LoadedMoved first k (s.load source).2 (s'.load source).2 := by
  obtain ⟨hle, hnext, hstate⟩ := h
  obtain ⟨hstatements, herrors, hfailed, hnext'⟩ := Reading.ofSource_moved (k := k) source hle
  have hle' := Nat.le_trans hle (Reading.le_nextId source s.nextId)
  have hstart : (Resolution.start s.state.distances).Like (.moved first k)
      (Likeness.moved first k).Agree (.start s'.state.distances) := .intro hstate.distances .nil
  have hr := Stmt.Like.resolveAll Likeness.records_moved hstatements hstart
  have hresolved : ({ s.state with distances := _, output := #[] } : State).Like
      (.full (.moved first k) #[] []) { s'.state with distances := _, output := #[] } :=
    ⟨hstate.store, hstate.env, hstate.within, hstate.depth, hr.distances,
      Array.append_empty.symm, hstate.time⟩
  unfold load
  dsimp only
  rw [hnext, hfailed, herrors]
  split
  · exact ⟨⟨hle', hnext', hstate⟩, .rejected _⟩
  · have hfailed' : (resolve (Reading.ofSource source (s.nextId + k)).statements
        s'.state.distances).failed = (resolve (Reading.ofSource source s.nextId).statements
        s.state.distances).failed := hr.failed
    have herrors' : (resolve (Reading.ofSource source (s.nextId + k)).statements
        s'.state.distances).errors.toList = (resolve (Reading.ofSource source s.nextId).statements
        s.state.distances).errors.toList := ResolveError.Like.eq_all hr.errors
    rw [hfailed', herrors']
    split
    · exact ⟨⟨hle', hnext', hresolved⟩, .rejected _⟩
    · exact ⟨⟨hle', hnext', hresolved⟩, .ready (.ofProgram hresolved hstatements)⟩

/-- The report is the same, and the sessions behind it differ as those before it. -/
def SameReport {α : Type} (first : NodeId) (k : Nat) (r r' : α × Session) : Prop :=
  r'.1 = r.1 ∧ r.2.Moved first k r'.2

theorem run_moved (h : s.Moved first k s') (fuel : Nat) (source : List UInt8) :
    Option.Rel (SameReport first k) (s.run fuel source) (s'.run fuel source) := by
  obtain ⟨hs, hl⟩ := load_moved h source
  unfold run
  generalize s.load source = l, s'.load source = l' at hs hl
  obtain ⟨s₁, l⟩ := l
  obtain ⟨s₁', l'⟩ := l'
  cases hl with
  | rejected errors => exact .some ⟨rfl, hs⟩
  | ready hm =>
    rename_i m m'
    obtain ⟨hstate, hcontrol⟩ := hm.run fuel (.inl rfl)
    have houtput : (m'.run fuel).state.output = (m.run fuel).state.output :=
      hstate.output.trans Array.empty_append
    have hleft : ({ (m.run fuel).state with output := #[] } : State).Like
        (.full (.moved first k) #[] []) { (m'.run fuel).state with output := #[] } :=
      ⟨hstate.store, hstate.env, hstate.within, hstate.depth, hstate.distances,
        Array.append_empty.symm, hstate.time⟩
    have ho := hcontrol.outcome?
    dsimp only
    generalize (m.run fuel).control.outcome? = o, (m'.run fuel).control.outcome? = o' at ho
    cases ho with
    | none => exact .none
    | some ho =>
      refine .some ⟨?_, hs.le, hs.nextId, hleft⟩
      rw [houtput]
      exact Report.ended_moved ho _

/-- What a chunk has printed after `n` steps, whether or not it has ended by then. -/
def printed (n : Nat) (s : Session) (source : List UInt8) : List String :=
  match (s.load source).2 with
  | .rejected _ => []
  | .ready m => (m.run n).state.output.toList

theorem printed_moved (h : s.Moved first k s') (n : Nat) (source : List UInt8) :
    s'.printed n source = s.printed n source := by
  obtain ⟨-, hl⟩ := load_moved h source
  unfold printed
  generalize (s.load source).2 = l, (s'.load source).2 = l' at hl
  cases hl with
  | rejected errors => rfl
  | ready hm =>
    exact congrArg Array.toList ((hm.run n (.inl rfl)).state.output.trans Array.empty_append)

/-- Any number of chunks is reported on in the same way. -/
theorem runAll_moved (fuel : Nat) (sources : List (List UInt8)) (h : s.Moved first k s') :
    Option.Rel (SameReport first k) (s.runAll fuel sources) (s'.runAll fuel sources) := by
  induction sources generalizing s s' with
  | nil => exact .some ⟨rfl, h⟩
  | cons source rest ih =>
    have hrun := run_moved h fuel source
    simp only [runAll, Option.bind_eq_bind]
    generalize s.run fuel source = r, s'.run fuel source = r' at hrun
    cases hrun with
    | none => exact .none
    | @some r r' hr =>
      obtain ⟨report, s₁⟩ := r
      obtain ⟨report', s₁'⟩ := r'
      obtain ⟨rfl, hs⟩ := hr
      have hrest := ih hs
      simp only [Option.bind_some]
      generalize s₁.runAll fuel rest = x, s₁'.runAll fuel rest = x' at hrest
      cases hrest with
      | none => exact .none
      | some hx =>
        obtain ⟨hreports, hs⟩ := hx
        exact .some ⟨congrArg (report' :: ·) hreports, hs⟩

/-! ## Sessions with a past -/

variable {readings : Nat → Int64} {chunks : List Chunk}

/-- Between two chunks nothing is printed. -/
theorem Past.output (h : Past readings s chunks) : s.state.output = #[] := by
  induction h with
  | initial => rfl
  | rejected _ hl ih =>
    rcases load_rejected hl with hs | ⟨-, hs⟩
    · rw [hs]
      exact ih
    · rw [hs]
      rfl
  | ended _ _ hl he =>
    obtain ⟨_, -, -, rfl⟩ := ended_of_run hl he
    rfl

/-- A session is like itself with the numbers that were not used yet further on. -/
theorem Kept.state_like (hk : s.Kept chunks) (hle : s.nextId ≤ first)
    (hstore : s.state.store.Like (.full (.moved first k) #[] []) s.state.store) :
    s.state.Like (.full (.moved first k) #[] []) s.state := by
  refine ⟨hstore, rfl, fun _ _ => trivial, rfl, ?_, Array.empty_append.symm, rfl⟩
  exact Likeness.agree_moved (fun _ _ => rfl) (fun id hi => hk.unused id (Nat.le_trans hle hi))
    fun id hi => hk.unused id (Nat.le_trans hle (Nat.le_trans (Nat.le_add_right ..) hi))

/-- What a session holds refers to nodes with numbers that were used. -/
theorem Past.store_like (h : Past readings s chunks) (hle : s.nextId ≤ first) :
    s.state.store.Like (.full (.moved first k) #[] []) s.state.store := by
  induction h with
  | initial =>
    refine ⟨rfl, rfl, rfl, fun c _ => .of_mem fun p hp => ?_, fun c hc => absurd trivial hc,
      fun _ _ => trivial⟩
    match c, hp with
    | .frame 0, hp =>
      obtain rfl := List.mem_singleton.1 hp
      exact .native clock
    | .frame (_ + 1), hp => cases hp
    | .object _, hp => cases hp
  | rejected hp hl ih =>
    rcases load_rejected hl with hs | ⟨-, hs⟩
    · rw [hs] at hle ⊢
      exact ih (Nat.le_trans (Reading.le_nextId ..) hle)
    · rw [hs] at hle ⊢
      exact ih (Nat.le_trans (Reading.le_nextId ..) hle)
  | @ended s _ source m _ _ fuel hp hl he ih =>
    obtain ⟨o, -, -, rfl⟩ := ended_of_run hl he
    obtain ⟨hread, -, -, rfl⟩ := load_ready hl
    have hstore := ih (Nat.le_trans (Reading.le_nextId ..) hle)
    have hstate := (hp.kept.resolved hread).state_like hle hstore
    have hprogram : List.Forall₂ (Stmt.Like (.moved first k)) (s.chunk source).program
        (s.chunk source).program := Stmt.allLike_refl _ fun ref hmem =>
      .inl ⟨Nat.lt_of_lt_of_le ((Reading.sound hread).2.2.bounds ref hmem).2 hle, rfl⟩
    exact ((Machine.Alike.ofProgram hstate hprogram).run fuel (.inl rfl)).state.store

/-! ## Chunks behind a rejected one -/

/-- The session behind a rejected chunk differs from the one before it in the numbers that it used
up, and no node has one of these. -/
theorem Past.rejected_moved (h : Past readings s chunks) {errors : List Diagnostic}
    (hl : (s.load source).2 = .rejected errors) :
    (s.load source).1.state =
        { s.state with distances := (s.load source).1.state.distances } ∧
      ∃ k, s.Moved s.nextId k (s.load source).1 := by
  have hk := (h.rejected hl).kept
  have houtput := (h.rejected hl).output
  obtain ⟨hle, hstate, hsame⟩ : s.nextId ≤ (s.load source).1.nextId ∧
      (s.load source).1.state =
        { s.state with distances := (s.load source).1.state.distances } ∧
      ∀ id < s.nextId, (s.load source).1.state.distances[id]? = s.state.distances[id]? := by
    rcases load_rejected hl with hs | ⟨hread, hs⟩
    · rw [hs]
      exact ⟨Reading.le_nextId .., rfl, fun _ _ => rfl⟩
    · rw [hs]
      refine ⟨Reading.le_nextId .., ?_, fun id hi => Kept.resolved_distances hread (.inl hi)⟩
      exact congrArg (fun output => { (s.resolved source).state with output }) h.output.symm
  obtain ⟨k, hnext⟩ := Nat.exists_eq_add_of_le hle
  refine ⟨hstate, k, Nat.le_refl _, hnext, ?_⟩
  rw [hstate]
  refine ⟨h.store_like (Nat.le_refl _), rfl, fun _ _ => trivial, rfl, ?_,
    Array.empty_append.symm, rfl⟩
  exact Likeness.agree_moved hsame h.kept.unused fun id hi => hk.unused id (hnext ▸ hi)

/-- Whatever runs in a session leaves one with a past. -/
theorem Past.runAll {fuel : Nat} {sources : List (List UInt8)} {reports : List Report}
    (h : Past readings s chunks) (hr : s.runAll fuel sources = some (reports, s')) :
    (∃ chunks', Past readings s' chunks') ∧ reports.length = sources.length := by
  induction sources generalizing s chunks reports with
  | nil =>
    cases hr
    exact ⟨⟨chunks, h⟩, rfl⟩
  | cons source rest ih =>
    simp only [Session.runAll, Option.bind_eq_bind, Option.bind_eq_some_iff, Option.pure_def] at hr
    obtain ⟨⟨report, s₁⟩, hrun, ⟨reports₁, s₂⟩, hrest, hr⟩ := hr
    cases hr
    obtain ⟨chunks₁, h₁⟩ : ∃ chunks₁, Past readings s₁ chunks₁ :=
      (h.run hrun).elim (⟨_, ·⟩) (⟨_, ·⟩)
    obtain ⟨hpast, hlength⟩ := ih h₁ hrest
    exact ⟨hpast, congrArg (· + 1) hlength⟩

/-- Chunks that follow run in the session that those before them leave. -/
theorem runAll_append (s : Session) (fuel : Nat) (first second : List (List UInt8)) :
    s.runAll fuel (first ++ second) = (s.runAll fuel first).bind fun r =>
      (r.2.runAll fuel second).map fun r' => (r.1 ++ r'.1, r'.2) := by
  induction first generalizing s with
  | nil => simp [runAll]
  | cons source rest ih =>
    simp only [List.cons_append, runAll, Option.bind_eq_bind, Option.pure_def]
    cases s.run fuel source with
    | none => rfl
    | some r =>
      obtain ⟨report, s₁⟩ := r
      simp only [Option.bind_some, ih]
      cases s₁.runAll fuel rest with
      | none => rfl
      | some r =>
        obtain ⟨reports, s₂⟩ := r
        simp only [Option.bind_some]
        cases s₂.runAll fuel second <;> rfl

/-- What is left of a session and its reports if the chunk at place `i` is taken out: the other
reports, and whatever runs next prints the same at each step. -/
structure Without (i : Nat) (r r' : List Report × Session) : Prop where
  reports : r'.1 = r.1.eraseIdx i
  next : ∀ n source, r'.2.printed n source = r.2.printed n source

/-- A chunk with a static fault prints nothing and leaves the state as it was but for the distances.
Whatever chunks come before and behind it, the reports on all of them are those that there would be
without it, and if one of them is not enough with the fuel, then it is not without it either. -/
theorem rejected_unseen {fuel : Nat} {before : List (List UInt8)} {reports : List Report}
    {report : Report} (hb : (initial readings).runAll fuel before = some (reports, s))
    (hr : s.run fuel source = some (report, s')) (hs : report.status = .staticError) :
    report.output = [] ∧
      s'.state = { s.state with distances := s'.state.distances } ∧
      ∀ after, Option.Rel (Without before.length)
        ((initial readings).runAll fuel (before ++ source :: after))
        ((initial readings).runAll fuel (before ++ after)) := by
  obtain ⟨⟨chunks, hpast⟩, hlength⟩ := Past.initial.runAll hb
  cases hl : (s.load source).2 with
  | ready m =>
    obtain ⟨o, -, rfl, -⟩ := ended_of_run hl hr
    rcases Report.errors_ended (m.run fuel).state.output.toList o with ⟨e, he⟩ | he
    · rw [he] at hs
      cases hs
    · rw [he] at hs
      cases hs
  | rejected errors =>
    obtain ⟨hstate, k, hmoved⟩ := hpast.rejected_moved hl
    have hrun := run_of_rejected hl fuel
    obtain ⟨rfl, rfl⟩ := Prod.mk.inj (Option.some.inj (hr.symm.trans hrun))
    refine ⟨rfl, hstate, fun after => ?_⟩
    have hafter := runAll_moved fuel after hmoved
    rw [runAll_append, runAll_append, hb]
    simp only [Option.bind_some, runAll, hr, Option.bind_eq_bind, Option.pure_def]
    generalize s.runAll fuel after = r, (s.load source).1.runAll fuel after = r' at hafter
    cases hafter with
    | none => exact .none
    | @some r r' h =>
      obtain ⟨hreports, hs⟩ := h
      refine .some ⟨?_, fun n source => (printed_moved hs n source).symm⟩
      rw [← hlength, List.eraseIdx_append_of_length_le (Nat.le_refl _), Nat.sub_self,
        List.eraseIdx_cons_zero, hreports]

/-- `{ var a; a; return; }`, for which a distance is recorded before it is rejected. -/
def returnOutside : List UInt8 := Utf8.encode "{ var a; a; return; }"

theorem rejected_unseen_returnOutside : ∃ reports s report s',
    (initial fun _ => 0).runAll 8 [callNil] = some (reports, s) ∧
      s.run 8 returnOutside = some (report, s') ∧ report.status = .staticError ∧
      Option.Rel (Without 1) ((initial fun _ => 0).runAll 8 [callNil, returnOutside, callNil])
        ((initial fun _ => 0).runAll 8 [callNil, callNil]) := by
  obtain ⟨e, hcall⟩ := run_callNil
  obtain ⟨s, hs⟩ : ∃ s : Session, s = { (initial fun _ => 0).resolved callNil with
      state := { ((initial fun _ => 0).resolved callNil).state with output := #[] } } := ⟨_, rfl⟩
  rw [← hs] at hcall
  have hb : (initial fun _ => 0).runAll 8 [callNil] = some ([.ended [] (.error e)], s) := by
    simp [runAll, hcall]
  obtain ⟨errors, hl⟩ : ∃ errors, (s.load returnOutside).2 = .rejected errors := by
    rw [hs]
    exact ⟨_, by with_unfolding_all rfl⟩
  have hr := run_of_rejected hl 8
  exact ⟨_, s, _, _, hb, hr, rfl, (rejected_unseen hb hr rfl).2.2 [callNil]⟩

end Session

end Lox
