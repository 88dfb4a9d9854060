/-
Two chunks or one. If a chunk runs well and the next one is accepted, then both
as one source, with a line feed between them, do what they do one after the
other: every pass over the source goes from the first chunk into the second one
as it would have begun it. The statements of the second one stand on later lines
there, which shows in the lines of errors and in nothing else (`run_joined`).
-/
import Lox.Proofs.Source.Join
import Lox.Proofs.Grammar.Append
import Lox.Proofs.Scope.Like
import Lox.Proofs.Machine.Append
import Lox.Proofs.Session.Agreement
import Lox.Proofs.Session.Exit

namespace Lox

open Source (lineFeed)

/-! ## Tokens on later lines -/

/-- The token stands in the source, or it is the receiver of a method whose name stands there. -/
def Token.ComesFrom (t : Token) (source : List UInt8) : Prop :=
  t ∈ (Source.scan source).1 ∨
    ∃ name ∈ (Source.scan source).1, t = .identifier receiverName name.line

/-- The tokens of a source may stand some lines further down. -/
def Likeness.below (source : List UInt8) (lines : Nat) : Likeness where
  line t l := l = t.line ∨ t.ComesFrom source ∧ l = t.line + lines
  node := Eq
  line_refl _ := .inl rfl
  line_receiver h := by
    refine h.imp id fun ⟨hfrom, hl⟩ => ⟨.inr ?_, hl⟩
    rcases hfrom with ht | ⟨name, hname, rfl⟩
    · exact ⟨_, ht, rfl⟩
    · exact ⟨name, hname, rfl⟩

instance {source : List UInt8} {lines : Nat} : (Likeness.below source lines).Numbered :=
  ⟨fun _ => rfl⟩

/-! ## Reading -/

/-- A source behind another one is read as it is alone, but for the lines of its tokens. -/
theorem Reading.ofSource_append {first second : List UInt8} {firstId : NodeId}
    (h : (Reading.ofSource first firstId).errors = [])
    (h' : (Reading.ofSource second (Reading.ofSource first firstId).nextId).errors = []) :
    (Reading.ofSource (first ++ lineFeed :: second) firstId).errors = [] ∧
      (Reading.ofSource (first ++ lineFeed :: second) firstId).nextId =
        (Reading.ofSource second (Reading.ofSource first firstId).nextId).nextId ∧
      ∃ ss, (Reading.ofSource (first ++ lineFeed :: second) firstId).statements =
          (Reading.ofSource first firstId).statements ++ ss ∧
        List.Forall₂ (Stmt.Like (.below second (first.count lineFeed + 1)))
          (Reading.ofSource second (Reading.ofSource first firstId).nextId).statements ss := by
  obtain ⟨hlex, hparse⟩ := List.append_eq_nil_iff.1 h
  obtain ⟨hlex', hparse'⟩ := List.append_eq_nil_iff.1 h'
  obtain ⟨body, htokens, hjoined, hquiet⟩ := Source.scan_join hlex hlex'
  obtain ⟨body₁, hbody₁, hend₁⟩ := Source.scan_end first
  obtain ⟨body₂, hbody₂, hend₂⟩ := Source.scan_end second
  obtain rfl : body = body₁ := List.append_cancel_right (htokens.symm.trans hend₁)
  set k := first.count lineFeed + 1
  have hfirst : Grammar.bodyOf (Source.scan first).1 = body := by
    rw [hend₁]
    exact Grammar.bodyOf_append hbody₁ rfl
  have hsecond : Grammar.bodyOf (Source.scan second).1 = body₂ := by
    rw [hend₂]
    exact Grammar.bodyOf_append hbody₂ rfl
  have hboth : Grammar.bodyOf (Source.scan (first ++ lineFeed :: second)).1 =
      Grammar.bodyOf (Source.scan first).1 ++ body₂.map (Token.down k) := by
    rw [hjoined, hfirst, hend₂, List.map_append, ← List.append_assoc]
    refine Grammar.bodyOf_append (fun t ht => ?_) rfl
    rcases List.mem_append.1 ht with ht | ht
    · exact hbody₁ t ht
    · obtain ⟨u, hu, rfl⟩ := List.mem_map.1 ht
      exact hbody₂ u hu
  have hlike : List.Forall₂ (Token.Like (.below second k))
      (Grammar.bodyOf (Source.scan second).1) (body₂.map (Token.down k)) := by
    rw [hsecond, List.forall₂_map_right_iff, List.forall₂_same]
    refine fun t ht => ⟨rfl, rfl, .inr ⟨.inl ?_, rfl⟩⟩
    rw [hend₂]
    exact List.mem_append_left _ ht
  obtain ⟨herrors, hnext, ss, hss, hstatements⟩ := Grammar.parse_append hboth hlike
    (List.map_eq_nil_iff.1 hparse) (List.map_eq_nil_iff.1 hparse')
  refine ⟨List.append_eq_nil_iff.2 ⟨?_, ?_⟩, hnext, ss, hss, hstatements⟩
  · exact hquiet
  · exact congrArg (List.map Diagnostic.parse) herrors

/-- The same runtime error but for its line. -/
inductive Diagnostic.Like (L : Likeness) : Diagnostic → Diagnostic → Prop
  | runtime {e e' : RuntimeError} : e.Like L e' → Like L (.runtime e) (.runtime e')

namespace Session

variable {readings : Nat → Int64} {s s₁ : Session} {chunks : List Chunk} {first second : List UInt8}

/-! ## The chunk before -/

/-- A chunk that ran well came to the end of its program, and what it left is the state there. -/
theorem run_ok {source : List UInt8} {fuel : Nat} {report : Report}
    (h : s.run fuel source = some (report, s₁)) (hok : report.status = .ok) : ∃ m n f,
    (s.load source).2 = .ready m ∧ (m.run n).control = .flow f (.push (.program []) .bottom) ∧
      (∀ i < n, (m.run i).control.atEnd = false) ∧
      report.output = (m.run n).state.output.toList ∧
      s₁ = { s.resolved source with state := { (m.run n).state with output := #[] } } := by
  cases hl : (s.load source).2 with
  | rejected errors =>
    rw [run_of_rejected hl] at h
    cases h
    cases hok
  | ready m =>
    obtain ⟨o, ho, rfl, rfl⟩ := ended_of_run hl h
    obtain ⟨-, -, -, rfl⟩ := load_ready hl
    have hne : ∀ e, o ≠ .error e := by
      rintro e rfl
      cases hok
    obtain ⟨n, f, hend, hlast, hbefore⟩ := Machine.ends_of_outcome ho hne
    rw [hlast]
    refine ⟨_, n, f, rfl, hend, hbefore, ?_, rfl⟩
    cases o <;> rfl

/-- Both sources as one chunk are the statements of the first one and then those of the second one,
which is resolved as it is behind the first one. -/
theorem load_append (after : State) (hread : (Reading.ofSource first s.nextId).errors = [])
    (hclean : (s.chunk first).resolution.Clean)
    (hd : after.distances = (s.resolved first).state.distances)
    (hread' : (Reading.ofSource second (s.resolved first).nextId).errors = [])
    (hclean' : (chunk ⟨after, (s.resolved first).nextId⟩ second).resolution.Clean) :
    ∃ ss, List.Forall₂ (Stmt.Like (.below second (first.count lineFeed + 1)))
        (chunk ⟨after, (s.resolved first).nextId⟩ second).program ss ∧
      s.resolved (first ++ lineFeed :: second) =
        ⟨(s.resolved first).state.shift
            (resolved ⟨after, (s.resolved first).nextId⟩ second).state.distances s.state.time,
          (resolved ⟨after, (s.resolved first).nextId⟩ second).nextId⟩ ∧
      (s.load (first ++ lineFeed :: second)).2 = .ready (.ofProgram
        (s.resolved (first ++ lineFeed :: second)).state ((s.chunk first).program ++ ss)) := by
  obtain ⟨herrors, hnext, ss, hss, hlike⟩ := Reading.ofSource_append hread hread'
  have hprogram : (s.chunk (first ++ lineFeed :: second)).program =
      (s.chunk first).program ++ ss := hss
  have hlater := @resolve_append (.below second (first.count lineFeed + 1)) Eq.symm _ _ _
    s.state.distances (Reading.sound hread).1 hclean hlike
  have hafter : (chunk ⟨after, (s.resolved first).nextId⟩ second).resolution =
      resolve (chunk ⟨after, (s.resolved first).nextId⟩ second).program
        (s.chunk first).resolution.distances := congrArg (resolve _) hd
  have hjoined : (s.chunk (first ++ lineFeed :: second)).resolution =
      resolve ((s.chunk first).program ++ ss) s.state.distances :=
    congrArg (resolve · s.state.distances) hss
  have hdistances : (s.chunk (first ++ lineFeed :: second)).resolution.distances =
      (chunk ⟨after, (s.resolved first).nextId⟩ second).resolution.distances := by
    rw [hjoined, hafter]
    exact hlater.distances.symm
  refine ⟨ss, hlike, ?_, ?_⟩
  · refine congrArg₂ Session.mk ?_ hnext
    exact congrArg (fun d => { s.state with distances := d, output := #[] }) hdistances
  · have hready := load_of_clean herrors (hjoined ▸ hlater.clean (hafter ▸ hclean'))
    rw [hprogram] at hready
    exact hready

/-! ## The run up to the second chunk -/

/-- What a chunk refers to was numbered when it was read, or before. -/
theorem Past.reference_lt (hp : Past readings s chunks) {source : List UInt8} {m : Machine}
    (hl : (s.load source).2 = .ready m) (n : Nat) {id : NodeId} {name : Token}
    (hc : (m.run n).control.reference? = some (id, name)) : id < (s.resolved source).nextId := by
  obtain ⟨e, v, ⟨c, hchunk, hv⟩, he, -⟩ := (Moment.intro n hp hl).at_reference hc
  exact (hp.kept.ready hl).below c hchunk id (hv.ids.subset (mem_ids_of_refersTo he))

/-- Distances for later numbers are nothing to a chunk. -/
theorem Past.run_shift (hp : Past readings s chunks) {source : List UInt8} {m : Machine}
    (hl : (s.load source).2 = .ready m) {distances : Std.HashMap NodeId Nat}
    (hd : ∀ id < (s.resolved source).nextId, distances[id]? = m.state.distances[id]?) (n : Nat) :
    (m.shift distances m.state.time).run n = (m.run n).shift distances (m.run n).state.time := by
  have hnearest : ∀ n time id name, (m.run n).control.reference? = some (id, name) →
      ((m.run n).state.shift distances time).holder? id name.lexeme =
        (m.run n).state.holder? id name.lexeme := by
    intro n time id name hc
    have hid := hd id (hp.reference_lt hl n hc)
    simp only [State.holder?, State.shift, Machine.distances_run, hid]
  have htime : (m.run n).state.time = ⟨m.state.time.readings, (m.run n).state.time.asked⟩ := by
    rw [← Machine.readings_run m n]
  rw [htime]
  exact Machine.run_shift hnearest fun _ _ _ => rfl

/-- What came of a chunk behind another one, and what came of both as one: the texts, but for those
that the first chunk had printed, the status, the error but for its line, and the session, but for
the lines in functions. -/
structure Joined (L : Likeness) (printed : List String) (apart joined : Report × Session) :
    Prop where
  status : joined.1.status = apart.1.status
  output : joined.1.output = printed ++ apart.1.output
  errors : List.Forall₂ (Diagnostic.Like L) apart.1.errors joined.1.errors
  nextId : joined.2.nextId = apart.2.nextId
  env : joined.2.state.env = apart.2.state.env
  depth : joined.2.state.depth = apart.2.state.depth
  distances : joined.2.state.distances = apart.2.state.distances
  time : joined.2.state.time = apart.2.state.time
  /-- The globals and all that they lead to have the same names and like values. -/
  store : apart.2.state.store.Like (.full L printed.toArray []) joined.2.state.store

/-- The report on a machine that has ended, and the session that it leaves. -/
def result? (m : Machine) (nextId : NodeId) : Option (Report × Session) :=
  m.control.outcome?.map fun o =>
    (.ended m.state.output.toList o, ⟨{ m.state with output := #[] }, nextId⟩)

theorem run_eq_result? {source : List UInt8} {m : Machine} (h : (s.load source).2 = .ready m)
    (fuel : Nat) : s.run fuel source = result? (m.run fuel) (s.resolved source).nextId :=
  run_of_ready h fuel

/-- Machines that are alike report alike. -/
theorem joined_of_alike {L : Likeness} {printed : Array String} {m m' : Machine}
    (h : m.Alike (.full L printed []) m') (hd : m'.state.distances = m.state.distances)
    (nextId : NodeId) :
    Option.Rel (Joined L printed.toList) (result? m nextId) (result? m' nextId) := by
  obtain ⟨hs, hc⟩ := h
  have houtput : m'.state.output.toList = printed.toList ++ m.state.output.toList := by
    rw [hs.output]
    exact Array.toList_append
  have ended {o o' : Outcome} (ho : o.Like (.full L printed []) o') :
      Joined L printed.toList
        (.ended m.state.output.toList o, ⟨{ m.state with output := #[] }, nextId⟩)
        (.ended m'.state.output.toList o', ⟨{ m'.state with output := #[] }, nextId⟩) := by
    have hstore : m.state.store.Like (.full L printed.toList.toArray []) m'.state.store := hs.store
    cases ho with
    | value | flow => exact ⟨rfl, houtput, .nil, rfl, hs.env, hs.depth, hd, hs.time, hstore⟩
    | error he =>
      exact ⟨rfl, houtput, .cons (.runtime he) .nil, rfl, hs.env, hs.depth, hd, hs.time, hstore⟩
  have hrel := hc.outcome?
  unfold result?
  generalize m.control.outcome? = x, m'.control.outcome? = x' at hrel
  cases hrel with
  | none => exact .none
  | some ho => exact .some (ended ho)

/-- In front of the statements of a second chunk, a first one comes to the state in which it ends
alone, but for the distances, which are already those of both. -/
theorem Past.run_append (hp : Past readings s chunks) {m : Machine}
    (hl : (s.load first).2 = .ready m) {distances : Std.HashMap NodeId Nat}
    (hd : ∀ id < (s.resolved first).nextId, distances[id]? = m.state.distances[id]?) {n : Nat}
    {f : Flow} (hend : (m.run n).control = .flow f (.push (.program []) .bottom))
    (hbefore : ∀ i < n, (m.run i).control.atEnd = false) (ss : List Stmt) :
    (Machine.ofProgram ((s.resolved first).state.shift distances s.state.time)
      ((s.chunk first).program ++ ss)).run n =
        ⟨{ (m.run n).state with distances }, .flow f (.push (.program ss) .bottom)⟩ := by
  have hshift := hp.run_shift hl hd
  obtain ⟨-, -, -, rfl⟩ := load_ready hl
  have hreach := Machine.run_append ((s.resolved first).state.shift distances s.state.time)
    (s.chunk first).program ss ((congrArg Machine.control (hshift n)).trans hend)
    fun i hi => (congrArg (fun m => m.control.atEnd) (hshift i)).trans (hbefore i hi)
  rw [hreach]
  exact congrArg (fun m => Machine.mk m.state (.flow f (.push (.program ss) .bottom))) (hshift n)

/-- Two chunks one after the other do what they do as one source with a line feed between them. If
the first one ran well, and the second one is accepted behind it, then the source ends if the second
chunk does, and only then, having printed the texts of both, with the status of the second one, with
the error that this one has, if any, and in a session that differs only in lines. -/
theorem run_joined (hp : Past readings s chunks) {fuel : Nat} {report : Report}
    (h : s.run fuel first = some (report, s₁)) (hok : report.status = .ok) {m : Machine}
    (hl : (s₁.load second).2 = .ready m) : ∃ n, ∀ more,
    Option.Rel (Joined (.below second (first.count lineFeed + 1)) report.output)
      (s₁.run more second) (s.run (n + more) (first ++ lineFeed :: second)) := by
  obtain ⟨m₁, n, f, hl₁, hend, hbefore, houtput, rfl⟩ := run_ok h hok
  obtain ⟨hread, hclean, -, hm₁⟩ := load_ready hl₁
  obtain ⟨hread', hclean', -, rfl⟩ := load_ready hl
  have hd : (m₁.run n).state.distances = (s.resolved first).state.distances := by
    rw [Machine.distances_run, hm₁]
    rfl
  obtain ⟨ss, hlike, hresolved, hready⟩ :=
    load_append { (m₁.run n).state with output := #[] } hread hclean hd hread' hclean'
  set s₁ : Session := ⟨{ (m₁.run n).state with output := #[] }, (s.resolved first).nextId⟩
  set distances := (s₁.resolved second).state.distances
  have hkept : ∀ id < (s.resolved first).nextId, distances[id]? = m₁.state.distances[id]? := by
    intro id hlt
    have hid := Kept.resolved_distances (s := s₁) hread' (.inl hlt)
    rw [hid, ← Machine.distances_run m₁ n]
  have hreach := hp.run_append hl₁ hkept hend hbefore ss
  rw [hresolved] at hready
  refine ⟨n, fun more => ?_⟩
  rw [run_eq_result? hl, run_eq_result? hready, hresolved, Machine.run_add, hreach, houtput]
  have hstate₁ : ({ (m₁.run n).state with distances, output := #[] } : State).Like
      (.full (.below second (first.count lineFeed + 1)) (m₁.run n).state.output [])
      { (m₁.run n).state with distances } :=
    State.like_printed (L := .below second _) Eq.symm { (m₁.run n).state with distances }
  have halike := (Machine.Alike.ofProgram hstate₁ hlike).run more (.inl rfl)
  have hjoined := joined_of_alike halike
    (by rw [Machine.distances_run, Machine.distances_run]; rfl) (s₁.resolved second).nextId
  obtain ⟨houtcome, hstate⟩ := Machine.run_program
    { (m₁.run n).state with distances } f ss .bottom more
  simp only [result?, houtcome, hstate]
  exact hjoined

/-- `print nil;` on two lines, with a comment that only what follows ends. -/
def printNil : List UInt8 := Utf8.encode "print\nnil; // nil"

/-- `x;`, which fails behind `printNil`. -/
def readUndefined : List UInt8 := Utf8.encode "x;"

theorem run_joined_undefined : ∃ report s₁ m,
    (Session.initial fun _ => 0).run 6 printNil = some (report, s₁) ∧ report.status = .ok ∧
      report.output = ["nil"] ∧ (s₁.load readUndefined).2 = .ready m ∧
      ∃ n, ∀ more, Option.Rel (Joined (.below readUndefined 2) ["nil"]) (s₁.run more readUndefined)
        ((Session.initial fun _ => 0).run (n + more) (printNil ++ lineFeed :: readUndefined)) := by
  have hp : ((Session.initial fun _ => 0).chunk printNil).program = [.print (.literal .nil)] := by
    with_unfolding_all rfl
  have he : (Reading.ofSource printNil 0).errors = [] := by with_unfolding_all rfl
  have hc : ((Session.initial fun _ => 0).chunk printNil).resolution.Clean := by
    rw [Chunk.resolution, hp]
    with_unfolding_all rfl
  have hrun := run_of_ready (load_of_clean he hc) 6
  have ho : (onlyChunk printNil 6).control.outcome? = some (.flow .normal) := by
    with_unfolding_all rfl
  have houtput : (onlyChunk printNil 6).state.output.toList = ["nil"] := by with_unfolding_all rfl
  rw [show (Machine.run 6 _).control.outcome? = _ from ho] at hrun
  obtain ⟨s₁, hs₁⟩ : ∃ s₁ : Session, s₁ = { (Session.initial fun _ => 0).resolved printNil with
    state := { (onlyChunk printNil 6).state with output := #[] } } := ⟨_, rfl⟩
  have he₁ : (Reading.ofSource readUndefined s₁.nextId).errors = [] := by
    rw [hs₁]
    with_unfolding_all rfl
  have hp₁ : (s₁.chunk readUndefined).program =
      [.expression (.variable 0 (.identifier "x" 1))] := by
    rw [hs₁]
    with_unfolding_all rfl
  have hc₁ : (s₁.chunk readUndefined).resolution.Clean := by
    rw [Chunk.resolution, hp₁]
    with_unfolding_all rfl
  have hl := load_of_clean he₁ hc₁
  have hrun : (Session.initial fun _ => 0).run 6 printNil = some (⟨.ok, ["nil"], []⟩, s₁) := by
    rw [hrun, hs₁, ← houtput]
    rfl
  have hlines : printNil.count lineFeed = 1 := by with_unfolding_all rfl
  have hjoined := run_joined (show Past (fun _ => 0) _ _ from .initial) hrun rfl hl
  rw [hlines] at hjoined
  exact ⟨_, _, _, hrun, rfl, rfl, hl, hjoined⟩

end Session

end Lox
