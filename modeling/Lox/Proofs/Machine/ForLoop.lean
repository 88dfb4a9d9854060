/-
What a `for` loop means. `ForLoop.run` carries the loop out as it is described:
the initializer once, in a frame of its own if there is one, and then again and
again in that frame the condition, the body and the increment. The `while` loop
that the parser puts in its place does the same (`forLoop_run`), although
it makes a frame for each round: that frame stays empty, for the body of a loop
declares nothing in the frame in which it is carried out.
-/
import Lox.Proofs.Grammar.SoundStatement
import Lox.Proofs.Machine.Grounded

namespace Lox

/-! ## The loop -/

/-- The clauses of a `for` loop and its body. -/
structure ForLoop where
  init : Option Stmt
  test : Option Expr
  step : Option Expr
  body : Stmt

namespace ForLoop

/-- What a loop carries out at a time. -/
inductive Part
  | init
  | test
  | body
  | step

/-- A loop in the midst of its work, and one that has ended. -/
inductive Progress
  | busy (part : Part) (m : Machine)
  | done (s : State) (o : Outcome)

/-- What was printed so far. -/
def Progress.output : Progress → Array String
  | .busy _ m => m.state.output
  | .done s _ => s.output

variable (l : ForLoop)

/-- Carries out the body. -/
def round (s : State) : Progress := .busy .body (.ofStmt s l.body)

/-- Evaluates the condition. Without one the loop goes on. -/
def check (s : State) : Progress :=
  match l.test with
  | some e => .busy .test (.ofExpr s e)
  | none => l.round s

/-- Evaluates the increment, if there is one. -/
def advance (s : State) : Progress :=
  match l.step with
  | some e => .busy .step (.ofExpr s e)
  | none => l.check s

/-- Carries out the initializer in a new frame, if there is one. -/
def begin (s : State) : Progress :=
  match l.init with
  | some stmt => .busy .init (.ofStmt (s.enter s.env .empty) stmt)
  | none => l.check s

/-- Goes on behind a part that has ended. The loop ends when the condition does not hold, and with
the first part that fails or returns, and leaves the environment as it was around it. -/
def after (around : Env) (s : State) : Part → Outcome → Progress
  | .init, .flow .normal => l.check s
  | .test, .value v =>
    if v.isTruthy then l.round s else .done { s with env := around } (.flow .normal)
  | .body, .flow .normal => l.advance s
  | .step, .value _ => l.check s
  | _, o => .done { s with env := around } o

/-- One step of the part that is carried out, or from one part to the next. -/
def next (around : Env) : Progress → Progress
  | .busy part m =>
    match m.control.outcome? with
    | some o => l.after around m.state part o
    | none => .busy part m.step
  | .done s o => .done s o

/-- The loop after `n` steps from the state. -/
def run (s : State) (n : Nat) : Progress := (l.next s.env)^[n] (l.begin s)

/-! ### The statement in its place -/

/-- The statement that the parser builds. -/
def stmt : Stmt := Grammar.forLoop l.init l.test l.step l.body

/-- The condition of its `while` loop. -/
def condition : Expr := l.test.getD (.literal (.bool true))

/-- The body of its `while` loop. -/
def inner : Stmt :=
  match l.step with
  | some e => .block [l.body, .expression e]
  | none => l.body

/-- The environment of all parts of the loop. -/
def env (s : State) : Env :=
  match l.init with
  | some _ => ⟨s.store.frames.size, s.env.chain⟩
  | none => s.env

/-- How many frames there are when the first part begins. -/
def frames (s : State) : Nat :=
  match l.init with
  | some _ => s.store.frames.size + 1
  | none => s.store.frames.size

/-- What waits for the end of the `while` loop. -/
def behind (s : State) : Stack .flow :=
  match l.init with
  | some _ => .push (.block [] s.env) .bottom
  | none => .bottom

/-- What waits for the end of a round. -/
def again (s : State) : Stack .flow := .push (.loopBody l.condition l.inner) (l.behind s)

/-- What lies below each part in the machine that carries out the statement. -/
inductive Under (s : State) : Part → {y : Yield} → Below y → Prop
  | init {stmt} : l.init = some stmt →
    Under s .init ⟨.push (.block [.while l.condition l.inner] s.env) .bottom, l.env s, l.env s⟩
  | test {e} : l.test = some e →
    Under s .test ⟨.push (.loopTest l.condition l.inner) (l.behind s), l.env s, l.env s⟩
  | body : l.step = none → Under s .body ⟨l.again s, l.env s, l.env s⟩
  /-- The increment stands behind the body, in a block. -/
  | first {e g} : l.step = some e →
    Under s .body ⟨.push (.block [.expression e] (l.env s)) (l.again s), l.env s,
      ⟨g, (l.env s).chain⟩⟩
  | step {e g} : l.step = some e →
    Under s .step ⟨.push .discard (.push (.block [] (l.env s)) (l.again s)), l.env s,
      ⟨g, (l.env s).chain⟩⟩

end ForLoop

namespace Ebnf

theorem undeclaring_whileForm (init : Option Stmt) (test step : Option Expr) {body : Stmt}
    (hb : body.Undeclaring) : (whileForm init test step body).Undeclaring := by
  cases init <;> cases test <;> cases step <;>
    simp [whileForm, withInitializer, whileTrue, withIncrement, Stmt.Undeclaring, hb]

/-- A statement of the grammar declares nothing where it stands. -/
theorem undeclaring_statement {nearest : Bool} {ts : List Token} {s : Stmt} {opens : Bool}
    (h : Statement nearest ts s opens) : s.Undeclaring := by
  cases h with
  | expression h =>
    cases h
    simp [Stmt.Undeclaring]
  | «for» _ _ _ _ _ _ _ hbody => exact undeclaring_whileForm _ _ _ (undeclaring_statement hbody)
  | «if» _ _ _ _ hthen => simpa [Stmt.Undeclaring] using undeclaring_statement hthen
  | ifElse _ _ _ _ hthen _ _ helse =>
    simpa [Stmt.Undeclaring] using ⟨undeclaring_statement hthen, undeclaring_statement helse⟩
  | «while» _ _ _ _ hbody => simpa [Stmt.Undeclaring] using undeclaring_statement hbody
  | print | «return» | block => simp [Stmt.Undeclaring]
termination_by ts.length
decreasing_by
  all_goals
    simp only [List.length_cons, List.length_append]
    omega

end Ebnf

/-! ## Ends -/

/-- The same end, up to spare frames. -/
inductive Outcome.Padded (W : World) : Outcome → Outcome → Prop
  | value {v v' : Value} : v.Padded W v' → Padded W (.value v) (.value v')
  | flow {f f' : Flow} : f.Padded W f' → Padded W (.flow f) (.flow f')
  | error (e) : Padded W (.error e) (.error e)

/-- A machine that is about to serve its end to what lies below another one. -/
inductive Control.Resumes (W : World) : {y : Yield} → Below y → Outcome → Control → Prop
  | value {v v' : Value} (B : Below .value) : v.Padded W v' →
    Resumes W B (.value v) (.value v' B.stack)
  | flow {f f' : Flow} (B : Below .flow) : f.Padded W f' →
    Resumes W B (.flow f) (.flow f' B.stack)
  | error {y : Yield} (B : Below y) (e) : Resumes W B (.error e) (.raise e B.stack)

/-- Where one machine has ended, the other one goes on with what lies below. -/
theorem Machine.Padded.resumes {W : World} {y : Yield} {B : Below y} {m m' : Machine}
    (h : Machine.Padded W B m m') {o : Outcome} (ho : m.control.outcome? = some o) :
    m.state.env = B.env ∧ m'.state.env = B.env' ∧ m'.control.Resumes W B o := by
  obtain ⟨s, c⟩ := m
  obtain ⟨s', c'⟩ := m'
  obtain ⟨-, hc⟩ := h
  cases hc with
  | eval | exec => cases ho
  | value hv hk =>
    cases hk with
    | bottom he he' => cases ho; exact ⟨he, he', .value B hv⟩
    | push => cases ho
  | flow hf hk =>
    cases hk with
    | bottom he he' => cases ho; exact ⟨he, he', .flow B hf⟩
    | push | block => cases ho
  | raise e hk =>
    cases hk with
    | bottom he he' => cases ho; exact ⟨he, he', .error B e⟩
    | push | block => cases ho

/-! ## Silent steps -/

/-- The machine comes to the other one in `n` steps, on which it prints nothing and does not end. -/
inductive Machine.Silent : Nat → Machine → Machine → Prop
  | refl (m) : Silent 0 m m
  | step {n m m'} : m.control.outcome? = none → m.step.state.output = m.state.output →
    Silent n m.step m' → Silent (n + 1) m m'

namespace Machine.Silent

variable {n : Nat} {m m' : Machine}

theorem run (h : Silent n m m') : m.run n = m' := by
  induction h with
  | refl => rfl
  | step _ _ _ ih => rwa [run_succ]

theorem output (h : Silent n m m') : m'.state.output = m.state.output := by
  induction h with
  | refl => rfl
  | step _ hs _ ih => exact ih.trans hs

theorem before (h : Silent n m m') {i : Nat} (hi : i < n) :
    (m.run i).state.output = m.state.output ∧ (m.run i).control.outcome? = none := by
  induction h generalizing i with
  | refl => exact absurd hi (Nat.not_lt_zero i)
  | step ho hs _ ih =>
    cases i with
    | zero => exact ⟨rfl, ho⟩
    | succ i =>
      obtain ⟨houtput, hnone⟩ := ih (Nat.lt_of_succ_lt_succ hi)
      rw [run_succ]
      exact ⟨houtput.trans hs, hnone⟩

end Machine.Silent

namespace ForLoop

variable {l : ForLoop} {s₀ : State}

/-! ## The loop and the statement -/

/-- The machine that carries out the statement has come as far as the loop. -/
inductive Matches (l : ForLoop) (s₀ : State) : Progress → Machine → Prop
  | busy {W part m m'} {y : Yield} {B : Below y} : (World.same (l.frames s₀)).Le W →
    l.Under s₀ part B → Machine.Padded W B m m' → Matches l s₀ (.busy part m) m'
  | done {W s o m' o'} : (World.same (l.frames s₀)).Le W → s.Padded W m'.state →
    s.env = s₀.env → m'.state.env = s₀.env → m'.control.outcome? = some o' → o.Padded W o' →
    Matches l s₀ (.done s o) m'

/-- The machine will have come as far as the loop without printing anything. -/
def Approaches (l : ForLoop) (s₀ : State) (p : Progress) (m : Machine) : Prop :=
  ∃ n m', m.Silent n m' ∧ Matches l s₀ p m'

namespace Approaches

theorem here {p : Progress} {m : Machine} (h : Matches l s₀ p m) : Approaches l s₀ p m :=
  ⟨0, m, .refl m, h⟩

theorem step {p : Progress} {m : Machine} (ho : m.control.outcome? = none)
    (hs : m.step.state.output = m.state.output) (h : Approaches l s₀ p m.step) :
    Approaches l s₀ p m := by
  obtain ⟨n, m', hn, hm⟩ := h
  exact ⟨n + 1, m', .step ho hs hn, hm⟩

end Approaches

theorem env_of_none (h : l.init = none) : l.env s₀ = s₀.env := by rw [env, h]

theorem behind_of_none (h : l.init = none) : l.behind s₀ = .bottom := by rw [behind, h]

theorem behind_of_some {stmt : Stmt} (h : l.init = some stmt) :
    l.behind s₀ = .push (.block [] s₀.env) .bottom := by rw [behind, h]

theorem le_frames (l : ForLoop) (s₀ : State) :
    (World.same s₀.store.frames.size).Le (.same (l.frames s₀)) := by
  refine ⟨?_, List.Subset.refl _⟩
  unfold frames
  cases l.init with
  | none => exact List.prefix_rfl
  | some => exact ⟨[s₀.store.frames.size], List.range_succ.symm⟩

section

variable {W : World} (hs : s₀.Grounded) (hW : (World.same (l.frames s₀)).Le W)

include hs hW

theorem padded_start : s₀.env.Padded W s₀.env :=
  (hs.env.anchored.padded.mono (l.le_frames s₀)).mono hW

theorem anchored_env : (l.env s₀).Anchored W (l.env s₀) := by
  refine Env.Anchored.mono hW ?_
  unfold env frames
  cases l.init with
  | none => exact hs.env.anchored
  | some =>
    refine ⟨World.at_same.2 ⟨Nat.lt_succ_self _, rfl⟩, World.padded_same fun f hf => ?_⟩
    exact Nat.lt_succ_of_lt (hs.env f hf)

variable {s s' : State} (h : s.Padded W s')

include h

/-! ### The way out -/

theorem matches_done (he' : s'.env = s₀.env) {o o' : Outcome} (ho : o.Padded W o') {c : Control}
    (hc : c.outcome? = some o') :
    Matches l s₀ (.done { s with env := s₀.env } o) ⟨s', c⟩ := by
  refine .done hW ⟨h.store, ?_, h.depth, h.unresolved, h.unresolved', h.output, h.time⟩ rfl he' hc
    ho
  show s₀.env.Padded W s'.env
  rw [he']
  exact padded_start hs hW

theorem approaches_flow (he' : s'.env = l.env s₀) {f f' : Flow} (hf : f.Padded W f') :
    Approaches l s₀ (.done { s with env := s₀.env } (.flow f)) ⟨s', .flow f' (l.behind s₀)⟩ := by
  cases hinit : l.init with
  | none =>
    rw [behind_of_none hinit]
    exact .here (matches_done hs hW h (he'.trans (env_of_none hinit)) (.flow hf) rfl)
  | some =>
    rw [behind_of_some hinit]
    have hleave := h.leave (padded_start hs hW)
    refine .step rfl ?_ (.here ?_)
    · cases f' <;> rfl
    · have hstep : Machine.step ⟨s', .flow f' (.push (.block [] s₀.env) .bottom)⟩ =
          ⟨{ s' with env := s₀.env }, .flow f' .bottom⟩ := by cases f' <;> rfl
      rw [hstep]
      exact matches_done hs hW hleave rfl (.flow hf) rfl

theorem approaches_raise (he' : s'.env = l.env s₀) (e : RuntimeError) :
    Approaches l s₀ (.done { s with env := s₀.env } (.error e)) ⟨s', .raise e (l.behind s₀)⟩ := by
  cases hinit : l.init with
  | none =>
    rw [behind_of_none hinit]
    exact .here (matches_done hs hW h (he'.trans (env_of_none hinit)) (.error e) rfl)
  | some =>
    rw [behind_of_some hinit]
    have hleave := h.leave (padded_start hs hW)
    exact .step rfl rfl (.here (matches_done hs hW hleave rfl (.error e) rfl))

/-! ### The ways on -/

variable (hb : l.body.Undeclaring) (he : s.env = l.env s₀) (he' : s'.env = l.env s₀)

include hb he he'

theorem approaches_round :
    Approaches l s₀ (l.round s) ⟨s', .exec l.inner (l.again s₀)⟩ := by
  cases hstep : l.step with
  | none =>
    have hinner : l.inner = l.body := by rw [inner, hstep]
    rw [hinner]
    refine .here (.busy hW (.body hstep) ⟨h, .exec (.inl ?_) (.bottom he he')⟩)
    rw [Machine.ofStmt, he, he']
    exact anchored_env hs hW
  | some e =>
    have hinner : l.inner = .block [l.body, .expression e] := by rw [inner, hstep]
    rw [hinner]
    refine .step rfl rfl (.step rfl rfl (.here ?_))
    refine .busy (hW.trans (W.le_addSpare _)) (.first hstep (g := s'.store.frames.size))
      ⟨h.enterSpare, ?_⟩
    show Control.Padded _ _ _ _ _
      (.exec l.body (.push (.block [.expression e] s'.env) (l.again s₀)))
    rw [he']
    refine .exec (.inr hb) (.bottom he ?_)
    rw [← he']
    rfl

theorem approaches_check :
    Approaches l s₀ (l.check s)
      ⟨s', .eval l.condition (.push (.loopTest l.condition l.inner) (l.behind s₀))⟩ := by
  cases htest : l.test with
  | none =>
    have hcheck : l.check s = l.round s := by rw [check, htest]
    have hcondition : l.condition = .literal (.bool true) := by rw [condition, htest]; rfl
    have hround := approaches_round hs hW h hb he he'
    rw [again, hcondition] at hround
    rw [hcheck, hcondition]
    exact .step rfl rfl (.step rfl rfl hround)
  | some e =>
    have hcheck : l.check s = .busy .test (.ofExpr s e) := by rw [check, htest]
    have hcondition : l.condition = e := by rw [condition, htest]; rfl
    rw [hcheck]
    refine .here (.busy hW (.test htest) ⟨h, ?_⟩)
    show Control.Padded _ _ _ _ (.eval e .bottom) (.eval l.condition _)
    rw [hcondition]
    exact .eval e (.bottom he he')

end

/-! ### The way in -/

section

variable (hs : s₀.Grounded) (hb : l.body.Undeclaring)

include hs hb

/-- Where a part has ended, the machine goes on to what the loop does next. -/
theorem approaches_after {W : World} (hW : (World.same (l.frames s₀)).Le W) {part : Part}
    {y : Yield} {B : Below y} (hunder : l.Under s₀ part B) {s s' : State} (h : s.Padded W s')
    (he : s.env = B.env) (he' : s'.env = B.env') {o : Outcome} {c : Control}
    (hc : c.Resumes W B o) :
    c.outcome? = none ∧ Approaches l s₀ (l.after s₀.env s part o) (Machine.step ⟨s', c⟩) := by
  have hleave := h.leave (padded_start hs hW)
  have hback : s.env = l.env s₀ → s.Padded W { s' with env := l.env s₀ } := fun he =>
    ⟨h.store, he ▸ (anchored_env hs hW).padded, h.depth, h.unresolved, h.unresolved', h.output,
      h.time⟩
  cases hunder with
  | init hinit =>
    cases hc with
    | flow _ hf =>
      cases hf with
      | normal =>
        refine ⟨rfl, .step rfl rfl ?_⟩
        have hcheck := approaches_check hs hW h hb he he'
        rwa [behind_of_some hinit] at hcheck
      | returned hv => exact ⟨rfl, .here (matches_done hs hW hleave rfl (.flow (.returned hv)) rfl)⟩
    | error _ e => exact ⟨rfl, .here (matches_done hs hW hleave rfl (.error e) rfl)⟩
  | test htest =>
    cases hc with
    | @value v v' _ hv =>
      have hafter : l.after s₀.env s .test (.value v) = if v.isTruthy then l.round s
          else .done { s with env := s₀.env } (.flow .normal) := rfl
      have hstep : Machine.step
          ⟨s', .value v' (.push (.loopTest l.condition l.inner) (l.behind s₀))⟩ =
            if v'.isTruthy then ⟨s', .exec l.inner (l.again s₀)⟩
            else ⟨s', .flow .normal (l.behind s₀)⟩ := rfl
      rw [hafter, hstep, hv.isTruthy]
      refine ⟨rfl, ?_⟩
      split
      · exact approaches_round hs hW h hb he he'
      · exact approaches_flow hs hW h he' .normal
    | error _ e => exact ⟨rfl, approaches_raise hs hW h he' e⟩
  | body hstep =>
    cases hc with
    | flow _ hf =>
      cases hf with
      | normal =>
        have hadvance : l.advance s = l.check s := by rw [advance, hstep]
        rw [after, hadvance]
        exact ⟨rfl, approaches_check hs hW h hb he he'⟩
      | returned hv => exact ⟨rfl, approaches_flow hs hW h he' (.returned hv)⟩
    | error _ e => exact ⟨rfl, approaches_raise hs hW h he' e⟩
  | @first e g hstep =>
    have hback := hback he
    cases hc with
    | flow _ hf =>
      cases hf with
      | normal =>
        have hadvance : l.advance s = .busy .step (.ofExpr s e) := by rw [advance, hstep]
        rw [after, hadvance]
        refine ⟨rfl, .step rfl rfl (.here (.busy hW (.step hstep (g := g)) ⟨h, ?_⟩))⟩
        exact .eval e (.bottom he he')
      | returned hv =>
        exact ⟨rfl, .step rfl rfl (approaches_flow hs hW hback rfl (.returned hv))⟩
    | error _ e => exact ⟨rfl, .step rfl rfl (approaches_raise hs hW hback rfl e)⟩
  | step hstep =>
    have hback := hback he
    cases hc with
    | value _ hv =>
      exact ⟨rfl, .step rfl rfl (.step rfl rfl (approaches_check hs hW hback hb he rfl))⟩
    | error _ e =>
      exact ⟨rfl, .step rfl rfl (.step rfl rfl (approaches_raise hs hW hback rfl e))⟩

/-- A step of a loop that has not ended. -/
theorem Matches.step {part : Part} {m m' : Machine} (h : Matches l s₀ (.busy part m) m') :
    m'.control.outcome? = none ∧ Approaches l s₀ (l.next s₀.env (.busy part m)) m'.step := by
  cases h with
  | busy hW hunder hm =>
    cases ho : m.control.outcome? with
    | none =>
      have hnext : l.next s₀.env (.busy part m) = .busy part m.step := by simp only [next, ho]
      obtain ⟨W', hle, hm'⟩ := hm.step ho
      rw [hnext]
      exact ⟨hm.outcome? ho, .here (.busy (hW.trans hle) hunder hm')⟩
    | some o =>
      have hnext : l.next s₀.env (.busy part m) = l.after s₀.env m.state part o := by
        simp only [next, ho]
      obtain ⟨he, he', hresumes⟩ := hm.resumes ho
      rw [hnext]
      exact approaches_after hs hb hW hunder hm.state he he' hresumes

omit hs hb in
theorem Matches.output {p : Progress} {m : Machine} (h : Matches l s₀ p m) :
    m.state.output = p.output := by
  cases h with
  | busy _ _ hm => exact hm.state.output
  | done _ h => exact h.output

/-! ### Runs -/

/-- However far the loop is carried out, the machine comes as far. -/
theorem Approaches.run {p : Progress} {m : Machine} (h : Approaches l s₀ p m) (n : Nat) :
    ∃ k, Matches l s₀ ((l.next s₀.env)^[n] p) (m.run k) := by
  induction n generalizing p m with
  | zero =>
    obtain ⟨k, m', hk, hm⟩ := h
    exact ⟨k, hk.run ▸ hm⟩
  | succ n ih =>
    obtain ⟨k, m', hk, hm⟩ := h
    rw [Function.iterate_succ_apply]
    cases p with
    | busy part m₁ =>
      obtain ⟨k', hk'⟩ := ih (hm.step hs hb).2
      refine ⟨k + (k' + 1), ?_⟩
      rwa [Machine.run_add, hk.run, Machine.run_succ]
    | done s o =>
      obtain ⟨k', hk'⟩ := ih (.here hm)
      refine ⟨k + k', ?_⟩
      rwa [Machine.run_add, hk.run]

/-- However far the machine runs, the loop has printed the same at some time, and has ended where
the machine has. -/
theorem Approaches.back {p : Progress} {m : Machine} (h : Approaches l s₀ p m) (k : Nat) :
    ∃ n, (m.run k).state.output = ((l.next s₀.env)^[n] p).output ∧
      ((m.run k).control.outcome? ≠ none →
        Matches l s₀ ((l.next s₀.env)^[n] p) (m.run k)) := by
  induction k using Nat.strongRecOn generalizing p m with
  | ind k ih =>
    obtain ⟨j, m', hj, hm⟩ := h
    by_cases hlt : k < j
    · obtain ⟨houtput, hnone⟩ := hj.before hlt
      exact ⟨0, houtput.trans (hj.output.symm.trans hm.output), fun hsome => absurd hnone hsome⟩
    · obtain ⟨i, rfl⟩ := Nat.exists_eq_add_of_le (Nat.le_of_not_lt hlt)
      rw [Machine.run_add, hj.run]
      cases p with
      | done s o =>
        have hdone : m'.isDone = true := by
          cases hm with
          | done _ _ _ _ ho => rw [Machine.isDone, ho]; rfl
        rw [Machine.run_of_isDone hdone]
        exact ⟨0, hm.output, fun _ => hm⟩
      | busy part m₁ =>
        cases i with
        | zero => exact ⟨0, hm.output, fun _ => hm⟩
        | succ i =>
          obtain ⟨n, houtput, hend⟩ := ih i (by omega) (hm.step hs hb).2
          rw [Machine.run_succ]
          refine ⟨n + 1, ?_, ?_⟩
          · rwa [Function.iterate_succ_apply]
          · rwa [Function.iterate_succ_apply]

end

end ForLoop

end Lox
