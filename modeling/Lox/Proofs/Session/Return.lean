/-
Where a `return` goes. In a session all that is carried out in a function is
above the call of this function on the stack (`Moment.known`). So the value of a
`return` has the innermost call to go to, and on its way there it passes blocks
and loops that do nothing more (`Ends.returnsTo`); outside of all calls every
statement ends normally or with an error.
-/
import Lox.Proofs.Session.Known
import Lox.Proofs.Session.Names

namespace Lox

/-! ## The way of a value that is returned -/

/-- The machine only passes on a value that is returned. -/
def Machine.Returning (s : State) (v : Value) (m : Machine) : Prop :=
  ∃ env k, m = ⟨{ s with env }, .flow (.returned v) k⟩

/-- A value that is returned goes to the innermost call, which is one of this function, and nothing
else happens on the way. -/
def Stack.ReturnsTo (s : State) (v : Value) (k : Stack .flow) (f : Closure) : Prop :=
  ∃ rest n env, k.caller? = some (f, rest) ∧
    (∀ i ≤ n, (Machine.run i ⟨s, .flow (.returned v) k⟩).Returning s v) ∧
    Machine.run n ⟨s, .flow (.returned v) k⟩ =
      ⟨{ s with env }, .flow (.returned v) (.push (.body f) rest)⟩

/-- What passes the value on is none of the calls. -/
theorem Stack.ReturnsTo.pass {s : State} {v : Value} {f : Closure} {w : Waiting .flow .flow}
    {k : Stack .flow} {env : Env}
    (hstep : Machine.step ⟨s, .flow (.returned v) (.push w k)⟩ =
      ⟨{ s with env }, .flow (.returned v) k⟩)
    (h : k.ReturnsTo { s with env } v f) : (Stack.push w k).ReturnsTo s v f := by
  obtain ⟨rest, n, last, hcaller, hpath, hend⟩ := h
  have hcaller' : (Stack.push w k).caller? = k.caller? := by cases w <;> rfl
  refine ⟨rest, n + 1, last, hcaller'.trans hcaller, fun i hi => ?_, ?_⟩
  · cases i with
    | zero => exact ⟨s.env, _, rfl⟩
    | succ i =>
      rw [Machine.run_succ, hstep]
      exact hpath i (Nat.le_of_succ_le_succ hi)
  · rw [Machine.run_succ, hstep, hend]

/-- A value that is returned in a call comes to it. -/
theorem Stack.Ends.returnsTo {visits : Site → Visit → Prop} {f : Closure} {v : Value} :
    ∀ {k : Stack .flow} {s : State}, k.Ends visits s.store s.env (some f) → k.ReturnsTo s v f
  | .bottom, _, h => by
    cases h with
    | inside h => cases h
  | .push (.body _) rest, s, h => by
    cases h with
    | body => exact ⟨rest, 0, s.env, rfl, fun i hi => by cases hi; exact ⟨s.env, _, rfl⟩, rfl⟩
    | inside h => cases h with | push hp => exact hp.elim
  | .push (.block stmts around) k, s, h => by
    have hk : k.Ends visits s.store around (some f) := by
      cases h with
      | inside h =>
        cases h with
        | block _ _ _ hk => exact .inside hk
        | call _ hf _ _ hk => exact .body hf hk
        | push hp => exact hp.elim
    exact .pass rfl (returnsTo (s := { s with env := around }) hk)
  | .push (.loopBody test inner) k, s, h => by
    have hk : k.Ends visits s.store s.env (some f) := by
      cases h with
      | inside h => cases h with | push _ _ hk => exact .inside hk
    exact .pass rfl (returnsTo (s := s) hk)
  | .push (.program stmts) k, s, h => by
    cases h with
    | inside h => cases h with | push _ hw => cases hw.suits

/-! ## Sessions -/

namespace Session

variable {readings : Nat → Int64} {m : Machine} {chunks : List Chunk}

/-- What stands in a function is executed in a call, in one of an initializer if it stands in one, and
what stands in none in no call. Outside of all calls every statement that ends without an error ends
normally. A value that is returned goes to the innermost call, without anything else happening on the
way, and is what this call yields, unless it is one of an initializer; then it is `nil`. -/
theorem Moment.returns (h : Moment readings m chunks) :
    (∀ stmt k, m.control = .exec stmt k → ∃ v, VisitedIn chunks (.stmt stmt) v ∧
      (v.resolution.function = .none ↔ k.caller? = none) ∧
      ∀ f rest, k.caller? = some (f, rest) →
        (v.resolution.function = .initializer ↔ f.isInit = true)) ∧
    (∀ f k, m.control = .flow f k → k.caller? = none → f = .normal) ∧
    ∀ x k, m.control = .flow (.returned x) k → ∃ f rest n env,
      k.caller? = some (f, rest) ∧ (f.isInit = true → x = .nil) ∧
      (∀ i ≤ n, (m.run i).Returning m.state x) ∧
      m.run n = ⟨{ m.state with env }, .flow (.returned x) (.push (.body f) rest)⟩ ∧
      (f.isInit = false →
        m.run (n + 1) = ⟨{ m.state with env, depth := m.state.depth - 1 }, .value x rest⟩) := by
  have hreturned : ∀ x k, m.control = .flow (.returned x) k → ∃ f, k.ReturnsTo m.state x f ∧
      (f.isInit = true → x = .nil) := by
    intro x k hc
    have hknown := h.known.control
    rw [hc] at hknown
    obtain ⟨host, ⟨-, f, rfl, hinit⟩, hk⟩ := hknown
    exact ⟨f, hk.returnsTo, hinit⟩
  refine ⟨fun stmt k hc => ?_, fun f k hc hnone => ?_, fun x k hc => ?_⟩
  · obtain ⟨host, ⟨v, hv, hh⟩, hk⟩ := h.runs_exec hc
    have hhost := hk.caller?
    refine ⟨v, hv, ?_, fun f rest hf => ?_⟩
    · cases hcaller : k.caller? with
      | none =>
        rw [hcaller] at hhost
        cases hhost
        exact iff_of_true hh rfl
      | some call =>
        rw [hcaller] at hhost
        cases hhost
        exact iff_of_false hh.1 nofun
    · rw [hf] at hhost
      cases hhost
      exact hh.2
  · cases f with
    | normal => rfl
    | returned x =>
      obtain ⟨f, ⟨rest, _, _, hcaller, -⟩, -⟩ := hreturned x k hc
      cases hnone.symm.trans hcaller
  · obtain ⟨f, ⟨rest, n, env, hcaller, hpath, hend⟩, hinit⟩ := hreturned x k hc
    obtain ⟨s, c⟩ := m
    obtain rfl : c = .flow (.returned x) k := hc
    refine ⟨f, rest, n, env, hcaller, hinit, hpath, hend, fun hf => ?_⟩
    rw [Machine.run_last, hend, Machine.step, Machine.serveFlow, Closure.result, hf]
    rfl

/-- `fun f() { return; } f();`, where the `return` has just been executed after nine steps. -/
def returnNil : List UInt8 := Utf8.encode "fun f() \x7b return; \x7d f();"

theorem program_returnNil : ((Session.initial fun _ => 0).chunk returnNil).program =
    [.function (.mk (.identifier "f" 1) [] [.ret ⟨.symbol .kwReturn, "return", 1⟩ none]),
      .expression (.call (.variable 0 (.identifier "f" 1)) ⟨.symbol .rightParen, ")", 1⟩ [])] := by
  with_unfolding_all rfl

theorem control_returnNil : (onlyChunk returnNil 9).control = .flow (.returned .nil)
    (.push (.block [] globals) (.push (.body ⟨1, .mk (.identifier "f" 1) []
      [.ret ⟨.symbol .kwReturn, "return", 1⟩ none], globals, false⟩)
        (.push .discard (.push (.program []) .bottom)))) := by
  have hcontrol : (onlyChunk returnNil 5).control = .eval (.variable 0 (.identifier "f" 1))
      (.push (.callee ⟨.symbol .rightParen, ")", 1⟩ []) (.push .discard
        (.push (.program []) .bottom))) := by with_unfolding_all rfl
  have hlook : (onlyChunk returnNil 5).state.lookUp 0 (.identifier "f" 1) = .ok
      (.callable (.closure ⟨1, .mk (.identifier "f" 1) []
        [.ret ⟨.symbol .kwReturn, "return", 1⟩ none], globals, false⟩)) := by
    have hempty : ((Session.initial fun _ => 0).chunk returnNil).resolution.distances = ∅ := by
      rw [Chunk.resolution, program_returnNil]
      with_unfolding_all rfl
    refine lookUp_onlyChunk ?_ (by with_unfolding_all rfl)
    rw [hempty, Std.HashMap.getElem?_empty]
  rw [show onlyChunk returnNil 9 = _ from onlyChunk_succ hcontrol hlook 3]
  with_unfolding_all rfl

theorem returns_returnNil : ∃ k f rest n env,
    Moment (fun _ => 0) (onlyChunk returnNil 9) [(Session.initial fun _ => 0).chunk returnNil] ∧
      (onlyChunk returnNil 9).control = .flow (.returned .nil) k ∧ k.caller? = some (f, rest) ∧
      (onlyChunk returnNil 9).run n =
        ⟨{ (onlyChunk returnNil 9).state with env },
          .flow (.returned .nil) (.push (.body f) rest)⟩ := by
  have he : (Reading.ofSource returnNil 0).errors = [] := by with_unfolding_all rfl
  have hc : ((Session.initial fun _ => 0).chunk returnNil).resolution.Clean := by
    rw [Chunk.resolution, program_returnNil]
    with_unfolding_all rfl
  have hmoment : Moment (fun _ => 0) (onlyChunk returnNil 9)
      [(Session.initial fun _ => 0).chunk returnNil] := .intro 9 .initial (load_of_clean he hc)
  obtain ⟨f, rest, n, env, hcaller, -, -, hend, -⟩ := hmoment.returns.2.2 _ _ control_returnNil
  exact ⟨_, f, rest, n, env, hmoment, control_returnNil, hcaller, hend⟩

end Session

end Lox
