/-
Programs whose scopes declare their names first mean the same without a
resolver. In such a program no frame between a reference and the frame at the
recorded distance has the name (`Mirrors.find?`), at any moment, so the nearest
frame that has the name is the one at the distance (`Moment.nearest`). A run that
asks for the nearest frame is then the same step by step (`run_plain`).
-/
import Lox.Proofs.Session.Names
import Lox.Proofs.Scope.Order

namespace Lox

open Resolution

/-- If each scope that will ever have the name has it already, then the nearest frame that has the
name is the one at the distance of the nearest scope that has it. -/
theorem Mirrors.find? {s : Store} {frames : List FrameId} {scopes closings : List Scope}
    (h : Mirrors s frames scopes closings) {n : String} (hg : Grows scopes closings)
    (hs : List.Forall₂ (Settled n) scopes closings) {d : Nat} (hd : distance? scopes n = some d) :
    frames.find? (fun f => (s.frame f).contains n) =
      frames[d]?.filter fun f => (s.frame f).contains n := by
  induction h generalizing d with
  | globals => simp [distance?] at hd
  | @scope frame frames scope closing scopes closings _ hnames honly _ ih =>
    obtain ⟨hgrow, hg⟩ := List.forall₂_cons.1 hg
    obtain ⟨hsettled, hs⟩ := List.forall₂_cons.1 hs
    rw [distance?, List.findIdx?_cons] at hd
    by_cases hc : scope.contains n = true
    · rw [if_pos hc] at hd
      obtain rfl : 0 = d := Option.some.inj hd
      have hheld : (s.frame frame).contains n = true := hnames n (hsettled (hgrow n hc))
      rw [List.find?_cons, hheld, List.getElem?_cons_zero, Option.filter_some, if_pos hheld]
    · rw [if_neg hc] at hd
      obtain ⟨d, hfound, rfl⟩ := Option.map_eq_some_iff.1 hd
      have hfree : (s.frame frame).contains n = false := Bool.eq_false_iff.2 fun hheld =>
        hc (Bindings.contains_of_get? (hsettled (honly n hheld)))
      rw [List.find?_cons, hfree, List.getElem?_cons_succ]
      exact ih hg hs hfound

/-- The receiver is settled wherever it is referred to. -/
theorem settled_receiver {c : Chunk} (ha : c.Accepted) {id : NodeId} {keyword : Token} {v : Visit}
    (hv : Visited c.program c.distances (.expr (.this id keyword)) v) :
    List.Forall₂ (Settled keyword.lexeme) v.scopes v.closing := by
  rw [Session.receiver_name ha hv]
  exact (hv.steady ha.proper ha.clean).receiver

/-- In an accepted program in order each name that is referred to is settled at the reference. -/
theorem settled_of_refersTo {c : Chunk} (ha : c.Accepted) (ho : Stmt.AllInOrder c.program) {e : Expr}
    {v : Visit} (hv : Visited c.program c.distances (.expr e) v) {id : NodeId} {name : Token}
    (he : e.refersTo id name) : List.Forall₂ (Settled name.lexeme) v.scopes v.closing := by
  have hall := (hv.ordered ha.proper ha.clean ho).all fun _ hd => hd
  cases e with
  | «variable» | assign =>
    obtain ⟨-, rfl⟩ := he
    exact hall _ ⟨_, List.mem_cons_self .., nofun, rfl⟩
  | this id' keyword =>
    obtain ⟨-, rfl⟩ := he
    exact settled_receiver ha hv
  | _ => exact he.elim

/-- Without distances a name is found in the nearest frame that has it. -/
theorem State.holder?_shift_empty (s : State) (time : Clock) (id : NodeId) (name : String) :
    (s.shift ∅ time).holder? id name = s.store.holder? s.env name := by
  simp [State.holder?, State.shift]

namespace Session

variable {readings : Nat → Int64} {m : Machine} {chunks : List Chunk}

/-- Where a name is referred to was visited with the scopes that the environment mirrors. -/
theorem Moment.at_reference (h : Moment readings m chunks) {id : NodeId} {name : Token}
    (hc : m.control.reference? = some (id, name)) :
    ∃ e v, VisitedIn chunks (.expr e) v ∧ e.refersTo id name ∧
      Mirrors m.state.store m.state.env.chain v.scopes v.closing := by
  cases hcontrol : m.control with
  | eval e k =>
    obtain ⟨v, hv, hm⟩ := h.at_eval hcontrol
    refine ⟨e, v, hv, ?_, hm⟩
    rw [hcontrol] at hc
    cases e with
    | «variable» | this => cases hc; exact ⟨rfl, rfl⟩
    | _ => cases hc
  | value x k =>
    rw [hcontrol] at hc
    cases k with
    | bottom => cases hc
    | push w k =>
      cases w with
      | assign =>
        cases hc
        obtain ⟨e, v, hv, hm, -⟩ := h.at_assign hcontrol
        exact ⟨_, v, hv, ⟨rfl, rfl⟩, hm⟩
      | _ => cases hc
  | exec | flow | raise => rw [hcontrol] at hc; cases hc

/-- A name that is settled is found, by its distance or without one, in the nearest frame that has
it. -/
theorem Moment.nearest_of_settled (h : Moment readings m chunks) {c : Chunk} (hchunk : c ∈ chunks)
    {e : Expr} {v : Visit} (hv : Visited c.program c.distances (.expr e) v) {id : NodeId}
    {name : Token} (he : e.refersTo id name)
    (hm : Mirrors m.state.store m.state.env.chain v.scopes v.closing)
    (hs : List.Forall₂ (Settled name.lexeme) v.scopes v.closing) :
    m.state.holder? id name.lexeme = m.state.store.holder? m.state.env name.lexeme := by
  have ha := h.accepted c hchunk
  cases hd : m.state.distances[id]? with
  | none => simp only [State.holder?, hd]
  | some d =>
    have hdistance : distance? v.scopes name.lexeme = some d :=
      (h.distance hchunk hv he).symm.trans hd
    have hg := (hv.fine ha.proper ha.clean).before_expr
    have hfind := hm.find? hg hs hdistance
    simp only [State.holder?, hd]
    exact hfind.symm

/-- In accepted programs in order a name is found, by its distance or without one, in the nearest
frame that has it. -/
theorem Moment.nearest (h : Moment readings m chunks) (ho : ∀ c ∈ chunks, Stmt.AllInOrder c.program)
    {id : NodeId} {name : Token} (hc : m.control.reference? = some (id, name)) :
    m.state.holder? id name.lexeme = m.state.store.holder? m.state.env name.lexeme := by
  obtain ⟨e, v, ⟨c, hchunk, hv⟩, he, hm⟩ := h.at_reference hc
  exact h.nearest_of_settled hchunk hv he hm
    (settled_of_refersTo (h.accepted c hchunk) (ho c hchunk) hv he)

/-! ## Runs without a resolver -/

/-- The machine that executes a program for which no distances were recorded. -/
def plain (readings : Nat → Int64) (program : List Stmt) : Machine :=
  .ofProgram (.initial readings) program

/-- The report on a program for which no distances were recorded, after `fuel` steps at most. -/
def interpret (fuel : Nat) (readings : Nat → Int64) (program : List Stmt) : Option Report :=
  let m := (plain readings program).run fuel
  m.control.outcome?.map (.ended m.state.output.toList)

variable {source : List UInt8}

/-- A program in order runs the same without distances. The clock must read the same, too, whenever
the run asks for it. -/
theorem run_plain (hl : ((Session.initial readings).load source).2 = .ready m)
    (ho : Stmt.AllInOrder ((Session.initial readings).chunk source).program)
    {readings' : Nat → Int64} {n : Nat}
    (ht : ∀ i < (m.run n).state.time.asked, readings' i = readings i) :
    (plain readings' ((Session.initial readings).chunk source).program).run n =
      (m.run n).shift ∅ ⟨readings', (m.run n).state.time.asked⟩ := by
  have hnearest : ∀ n time id name, (m.run n).control.reference? = some (id, name) →
      ((m.run n).state.shift ∅ time).holder? id name.lexeme =
        (m.run n).state.holder? id name.lexeme := by
    intro n time id name hc
    have hmoment : Moment readings (m.run n) _ := .intro n .initial hl
    rw [State.holder?_shift_empty]
    exact (hmoment.nearest (List.forall_mem_singleton.2 ho) hc).symm
  obtain ⟨-, -, -, rfl⟩ := load_ready hl
  exact Machine.run_shift hnearest fun i _ hi => ht i hi

/-- A program in order says and does the same without distances: step by step its machine has the same
to do and has printed the same, and with the same fuel it ends with the same report or does not end.
The clock must read the same whenever the program calls it; if the program never does, it may read
anything. -/
theorem interpret_eq_run (hl : ((Session.initial readings).load source).2 = .ready m)
    (ho : Stmt.AllInOrder ((Session.initial readings).chunk source).program)
    {readings' : Nat → Int64}
    (ht : ∀ n, ∀ i < (m.run n).state.time.asked, readings' i = readings i) :
    (∀ n, let m' := (plain readings' ((Session.initial readings).chunk source).program).run n
      m'.control = (m.run n).control ∧ m'.state.output = (m.run n).state.output) ∧
    ∀ fuel, interpret fuel readings' ((Session.initial readings).chunk source).program =
      ((Session.initial readings).run fuel source).map Prod.fst := by
  refine ⟨fun n => ?_, fun fuel => ?_⟩
  · simp only [run_plain hl ho (ht n)]
    exact ⟨rfl, rfl⟩
  · have hload : (Session.initial readings).load source =
        ((Session.initial readings).resolved source, .ready m) :=
      Prod.ext (load_ready hl).2.2.1 hl
    simp only [interpret, run_plain hl ho (ht fuel), Session.run, hload, Option.map_map]
    rfl

/-- `{ var a; fun f() { a = true; } f(); print a; }`, where `a` is written from inside of `f`. -/
def writeCaptured : List UInt8 := Utf8.encode "{ var a; fun f() { a = true; } f(); print a; }"

theorem interpret_writeCaptured : ∃ m,
    ((Session.initial fun _ => 0).load writeCaptured).2 = .ready m ∧
      Stmt.AllInOrder ((Session.initial fun _ => 0).chunk writeCaptured).program ∧
      ∀ fuel, interpret fuel (fun _ => 0)
          ((Session.initial fun _ => 0).chunk writeCaptured).program =
        ((Session.initial fun _ => 0).run fuel writeCaptured).map Prod.fst := by
  have hp : ((Session.initial fun _ => 0).chunk writeCaptured).program = [.block [
      .var (.identifier "a" 1) none,
      .function (.mk (.identifier "f" 1) []
        [.expression (.assign 1 (.identifier "a" 1) (.literal (.bool true)))]),
      .expression (.call (.variable 2 (.identifier "f" 1)) ⟨.symbol .rightParen, ")", 1⟩ []),
      .print (.variable 3 (.identifier "a" 1))]] := by
    with_unfolding_all rfl
  have he : (Reading.ofSource writeCaptured 0).errors = [] := by with_unfolding_all rfl
  have hc : ((Session.initial fun _ => 0).chunk writeCaptured).resolution.Clean := by
    rw [Chunk.resolution, hp]
    with_unfolding_all rfl
  have ho : Stmt.AllInOrder ((Session.initial fun _ => 0).chunk writeCaptured).program := by
    rw [hp]
    simp [Stmt.AllInOrder, Stmt.InOrder, FunctionDecl.InOrder, declaredFirst_iff,
      Stmt.OutsideInitializer, Stmt.declared?, FunctionDecl.name, Mentions, Stmt.references,
      FunctionDecl.references, Expr.references, Token.identifier]
  have hl := load_of_clean he hc
  exact ⟨_, hl, ho, (interpret_eq_run hl ho fun _ _ _ => rfl).2⟩

end Session

end Lox
