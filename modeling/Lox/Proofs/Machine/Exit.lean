/-
What a machine goes back to. Blocks and bodies are the only waiting computations
that change the environment and the depth when they are served, so the stack
says at any moment in which environment the machine will be when all that waits
is done (`Stack.home`), and how many calls are running (`Stack.calls`). No step
changes either of them, by whatever way it leaves a block or a body (`Rests.step`).
-/
import Lox.Machine.Step

namespace Lox

/-- The environment when a waiting computation has been served. -/
def Waiting.back {a b : Yield} : Waiting a b → Env → Env
  | .block _ around, _ => around
  | _, env => env

/-- How many calls a waiting computation stands for. A call runs as long as its body waits for its
end. -/
def Waiting.calls {a b : Yield} : Waiting a b → Nat
  | .body _ => 1
  | _ => 0

/-- The environment when all that waits has been served. -/
def Stack.home {a : Yield} : Stack a → Env → Env
  | .bottom, env => env
  | .push w rest, env => rest.home (w.back env)

/-- How many calls are running. -/
def Stack.calls {a : Yield} : Stack a → Nat
  | .bottom => 0
  | .push w rest => rest.calls + w.calls

/-- How many calls are running. -/
def Control.calls : Control → Nat
  | .eval _ k | .value _ k => k.calls
  | .exec _ k | .flow _ k => k.calls
  | .raise _ k => k.calls

/-- What waits leads back to this environment and this depth, and there are no more calls than there
may be. -/
def Stack.Rests {a : Yield} (k : Stack a) (s : State) (env : Env) (depth : Nat) : Prop :=
  k.home s.env = env ∧ s.depth = depth + k.calls ∧ s.depth ≤ maxDepth

/-- The machine leads back to this environment and this depth. -/
def Machine.Rests (env : Env) (depth : Nat) : Machine → Prop
  | ⟨s, .eval _ k⟩ | ⟨s, .value _ k⟩ => k.Rests s env depth
  | ⟨s, .exec _ k⟩ | ⟨s, .flow _ k⟩ => k.Rests s env depth
  | ⟨s, .raise _ k⟩ => k.Rests s env depth

namespace Machine

variable {s : State} {env : Env} {depth : Nat}

theorem Rests.ofResult {r : Except RuntimeError Value} {k : Stack .value}
    (h : k.Rests s env depth) : Rests env depth ⟨s, .ofResult r k⟩ := by
  cases r <;> exact h

/-! ## Calls -/

theorem Rests.assign {id : NodeId} {name : Token} {v : Value} {k : Stack .value}
    (h : k.Rests s env depth) : (assign s id name v k).Rests env depth := by
  unfold Machine.assign
  split <;> exact h

theorem Rests.property {o : Instance} {name : Token} {k : Stack .value}
    (h : k.Rests s env depth) : (property s o name k).Rests env depth := by
  unfold Machine.property
  split
  · exact h
  · split <;> exact h

/-- A body starts one call deeper, inside a block that gives the environment back. -/
theorem Rests.enterBody {f : Closure} {args : List Value} {k : Stack .value}
    (h : k.Rests s env depth) (hlt : s.depth < maxDepth) :
    (enterBody s f args k).Rests env depth := by
  obtain ⟨hhome, hdepth, -⟩ := h
  exact ⟨hhome, congrArg (· + 1) hdepth, hlt⟩

theorem Rests.callNative {f : Native} {args : List Value} {k : Stack .value}
    (h : k.Rests s env depth) : (callNative s f args k).Rests env depth := by
  unfold Machine.callNative
  split <;> exact h

theorem Rests.instantiate {c : Class} {args : List Value} {k : Stack .value}
    (h : k.Rests s env depth) (hlt : s.depth < maxDepth) :
    (instantiate s c args k).Rests env depth := by
  unfold Machine.instantiate
  dsimp only
  split
  · exact h
  · exact .enterBody (k := .push (.construct _) k) h hlt

theorem Rests.call {callee : Value} {paren : Token} {args : List Value} {k : Stack .value}
    (h : k.Rests s env depth) : (call s callee paren args k).Rests env depth := by
  obtain ⟨e, hcall⟩ | ⟨f, -, -, hlt, hcall⟩ := call_cases s callee paren args k
  · rw [hcall]
    exact h
  · rw [hcall]
    cases f with
    | native f => exact .callNative h
    | closure f => exact .enterBody h hlt
    | «class» c => exact .instantiate h hlt

theorem Rests.nextArgument {callee : Value} {paren : Token} {done : List Value}
    {rest : List Expr} {k : Stack .value} (h : k.Rests s env depth) :
    (nextArgument s callee paren done rest k).Rests env depth := by
  cases rest with
  | nil => exact .call h
  | cons e rest => exact h

/-! ## Steps and runs -/

theorem Rests.eval {e : Expr} {k : Stack .value} (h : k.Rests s env depth) :
    (eval s k e).Rests env depth := by
  cases e with
  | «variable» | this => exact .ofResult h
  | _ => exact h

theorem Rests.exec {stmt : Stmt} {k : Stack .flow} (h : k.Rests s env depth) :
    (exec s k stmt).Rests env depth := by
  cases stmt with
  | var name init => cases init <;> exact h
  | ret keyword value => cases value <;> exact h
  | _ => exact h

theorem Rests.serveValue {v : Value} {b : Yield} {w : Waiting .value b} {k : Stack b}
    (h : (Stack.push w k).Rests s env depth) : (serveValue s v w k).Rests env depth := by
  cases w with
  | unary | binaryRight => exact .ofResult h
  | logical op right => rw [Machine.serveValue]; split <;> exact h
  | assign id name => exact .assign h
  | callee paren args => exact .nextArgument h
  | argument callee paren done rest => exact .nextArgument h
  | property name =>
    cases v with
    | object o => exact .property h
    | _ => exact h
  | fieldObject name e => cases v <;> exact h
  | branch thenPart elsePart =>
    cases elsePart with
    | none | some => rw [Machine.serveValue]; split <;> exact h
  | loopTest test body => rw [Machine.serveValue]; split <;> exact h
  | _ => exact h

theorem Rests.serveFlow {f : Flow} {b : Yield} {w : Waiting .flow b} {k : Stack b}
    (h : (Stack.push w k).Rests s env depth) : (serveFlow s f w k).Rests env depth := by
  cases w with
  | block rest around => cases f <;> cases rest <;> exact h
  | loopBody test body => cases f <;> exact h
  | body f =>
    obtain ⟨hhome, hdepth, hle⟩ := h
    refine .ofResult ⟨hhome, ?_, Nat.le_trans (Nat.sub_le ..) hle⟩
    exact congrArg (· - 1) hdepth
  | program rest => cases rest <;> exact h

/-- An error leaves a block and a body in the same way as their end does. -/
theorem Rests.unwind {e : RuntimeError} {a b : Yield} {w : Waiting a b} {k : Stack b}
    (h : (Stack.push w k).Rests s env depth) : Rests env depth ⟨unwind s w, .raise e k⟩ := by
  cases w with
  | body f =>
    obtain ⟨hhome, hdepth, hle⟩ := h
    exact ⟨hhome, congrArg (· - 1) hdepth, Nat.le_trans (Nat.sub_le ..) hle⟩
  | _ => exact h

/-- A step leads back to where the machine led back before. -/
theorem Rests.step {m : Machine} (h : m.Rests env depth) : m.step.Rests env depth := by
  obtain ⟨s, c⟩ := m
  cases c with
  | eval e k => exact .eval h
  | exec stmt k => exact .exec h
  | value v k =>
    cases k with
    | bottom => exact h
    | push w k => exact .serveValue h
  | flow f k =>
    cases k with
    | bottom => exact h
    | push w k => exact .serveFlow h
  | raise e k =>
    cases k with
    | bottom => exact h
    | push w k => exact .unwind h

theorem Rests.run {m : Machine} (h : m.Rests env depth) (n : Nat) :
    (m.run n).Rests env depth := by
  induction n generalizing m with
  | zero => exact h
  | succ n ih => rw [run_succ]; exact ih h.step

/-- The depth counts the calls that run, and there are never too many. -/
theorem Rests.depth_eq {m : Machine} (h : m.Rests env depth) :
    m.state.depth = depth + m.control.calls ∧ m.state.depth ≤ maxDepth := by
  obtain ⟨s, c⟩ := m
  cases c <;> exact h.2

/-- A machine that has nothing left to do is back. -/
theorem Rests.of_isDone {m : Machine} (h : m.Rests env depth) (hd : m.isDone = true) :
    m.state.env = env ∧ m.state.depth = depth := by
  obtain ⟨s, c⟩ := m
  cases c with
  | eval | exec => cases hd
  | value v k =>
    cases k with
    | bottom => exact ⟨h.1, h.2.1⟩
    | push => cases hd
  | flow f k =>
    cases k with
    | bottom => exact ⟨h.1, h.2.1⟩
    | push => cases hd
  | raise e k =>
    cases k with
    | bottom => exact ⟨h.1, h.2.1⟩
    | push => cases hd

end Machine

/-! ## Overflow -/

/-- The fault of a machine that has one. -/
def Control.fault? : Control → Option RuntimeFault
  | .raise e _ => some e.fault
  | _ => none

/-- The call that the next step makes, if it makes one: what is called, and the arguments. -/
def Control.calling? : Control → Option (Value × List Value)
  | .value v (.push (.callee _ []) _) => some (v, [])
  | .value v (.push (.argument callee _ done []) _) => some (callee, (v :: done).reverse)
  | _ => none

theorem unaryOperation_fault {op : Token} {v : Value} {e : RuntimeError}
    (h : unaryOperation op v = .error e) : e.fault ≠ .stackOverflow := by
  unfold unaryOperation at h
  split at h <;> cases h <;> nofun

theorem binaryOperation_fault {op : Token} {left right : Value} {e : RuntimeError}
    (h : binaryOperation op left right = .error e) : e.fault ≠ .stackOverflow := by
  unfold binaryOperation at h
  split at h
  · cases h
  · cases h
  · split at h <;> cases h <;> nofun
  · split at h
    · split at h <;> cases h; nofun
    · cases h; nofun

/-- A look-up fails only because the name is not bound. -/
theorem State.lookUp_fault {s : State} {id : NodeId} {name : Token} {e : RuntimeError}
    (h : s.lookUp id name = .error e) : e.fault = .undefinedVariable name.lexeme := by
  unfold State.lookUp at h
  dsimp only at h
  split at h <;> cases h
  rfl

/-- A function fails at its end only because it has lost its receiver. -/
theorem Closure.result_fault {f : Closure} {s : Store} {ended : Flow} {e : RuntimeError}
    (h : f.result s ended = .error e) : e.fault = .undefinedVariable receiverName := by
  unfold Closure.result at h
  split at h
  · split at h <;> cases h
    rfl
  · cases ended <;> cases h

namespace Machine

variable {s : State}

/-- A step that does not report an overflow. -/
def Calm (m : Machine) : Prop := m.control.fault? ≠ some .stackOverflow

theorem calm_ofResult {r : Except RuntimeError Value} {k : Stack .value}
    (h : ∀ e, r = .error e → e.fault ≠ .stackOverflow) : Calm ⟨s, .ofResult r k⟩ := by
  cases r with
  | ok v => nofun
  | error e => exact fun hc => h e rfl (Option.some.inj hc)

theorem calm_assign (id : NodeId) (name : Token) (v : Value) (k : Stack .value) :
    (assign s id name v k).Calm := by
  unfold Machine.assign
  split <;> nofun

theorem calm_property (o : Instance) (name : Token) (k : Stack .value) :
    (property s o name k).Calm := by
  unfold Machine.property
  split
  · nofun
  · split <;> nofun

theorem calm_callNative (f : Native) (args : List Value) (k : Stack .value) :
    (callNative s f args k).Calm := by
  unfold Machine.callNative
  split <;> nofun

theorem calm_instantiate (c : Class) (args : List Value) (k : Stack .value) :
    (instantiate s c args k).Calm := by
  unfold Machine.instantiate
  dsimp only
  split <;> nofun

/-- A call overflows if it could be made but for the calls that run already. -/
theorem overflow_call (callee : Value) (paren : Token) (args : List Value) (k : Stack .value) :
    (call s callee paren args k).control.fault? = some .stackOverflow ↔
      ∃ f, callee = .callable f ∧ args.length = f.arity ∧ maxDepth ≤ s.depth := by
  cases callee with
  | nil | bool | number | string | object =>
    refine ⟨nofun, ?_⟩
    rintro ⟨f, h, -⟩
    cases h
  | callable f =>
    by_cases hn : args.length = f.arity
    · by_cases hd : maxDepth ≤ s.depth
      · have hcall : call s (.callable f) paren args k = ⟨s, .raise ⟨paren, .stackOverflow⟩ k⟩ := by
          simp only [call, hn, hd, ne_eq, not_true, if_false, if_true]
        rw [hcall]
        exact ⟨fun _ => ⟨f, rfl, hn, hd⟩, fun _ => rfl⟩
      · have hcalm : (call s (.callable f) paren args k).Calm := by
          simp only [call, hn, hd, ne_eq, not_true, if_false]
          cases f with
          | native f => exact calm_callNative f args k
          | closure f => nofun
          | «class» c => exact calm_instantiate c args k
        exact ⟨fun h => absurd h hcalm, fun ⟨_, _, _, h⟩ => absurd h hd⟩
    · have hcall : call s (.callable f) paren args k =
          ⟨s, .raise ⟨paren, .wrongArity f.arity args.length⟩ k⟩ := by
        simp only [call, hn, ne_eq, not_false_eq_true, if_true]
      rw [hcall]
      refine ⟨nofun, fun ⟨g, hg, hlen, _⟩ => absurd hlen ?_⟩
      cases hg
      exact hn

theorem calm_serveValue {v : Value} {b : Yield} {w : Waiting .value b} {k : Stack b}
    (h : (Control.value v (.push w k)).calling? = none) : (serveValue s v w k).Calm := by
  cases w with
  | unary op => exact calm_ofResult fun e he => unaryOperation_fault he
  | binaryRight left op => exact calm_ofResult fun e he => binaryOperation_fault he
  | logical op right => rw [Machine.serveValue]; split <;> (intro hc; cases hc)
  | assign id name => exact calm_assign id name v k
  | callee paren args =>
    cases args with
    | nil => cases h
    | cons e rest => intro hc; cases hc
  | argument callee paren done rest =>
    cases rest with
    | nil => cases h
    | cons e rest => intro hc; cases hc
  | property name =>
    cases v with
    | object o => exact calm_property o name k
    | _ => intro hc; cases hc
  | fieldObject name e => cases v <;> (intro hc; cases hc)
  | branch thenPart elsePart =>
    cases elsePart with
    | none | some => rw [Machine.serveValue]; split <;> (intro hc; cases hc)
  | loopTest test body => rw [Machine.serveValue]; split <;> (intro hc; cases hc)
  | _ => intro hc; cases hc

theorem calm_serveFlow (f : Flow) {b : Yield} (w : Waiting .flow b) (k : Stack b) :
    (serveFlow s f w k).Calm := by
  cases w with
  | block rest around => cases f <;> cases rest <;> nofun
  | loopBody test body => cases f <;> nofun
  | body f => exact calm_ofResult fun e he => by rw [f.result_fault he]; nofun
  | program rest => cases rest <;> nofun

theorem calm_step {c : Control} (hf : c.fault? = none) (hc : c.calling? = none) :
    (step ⟨s, c⟩).Calm := by
  cases c with
  | eval e k =>
    cases e with
    | «variable» | this => exact calm_ofResult fun e he => by rw [State.lookUp_fault he]; nofun
    | _ => nofun
  | exec stmt k =>
    cases stmt with
    | var name init => cases init <;> nofun
    | ret keyword value => cases value <;> nofun
    | _ => nofun
  | value v k =>
    cases k with
    | bottom => nofun
    | push w k => exact calm_serveValue hc
  | flow f k =>
    cases k with
    | bottom => nofun
    | push w k => exact calm_serveFlow f w k
  | raise e k => cases hf

theorem step_of_calling {c : Control} {callee : Value} {args : List Value}
    (hc : c.calling? = some (callee, args)) :
    ∃ paren k, step ⟨s, c⟩ = call s callee paren args k := by
  cases c with
  | eval | exec | flow | raise => cases hc
  | value v k =>
    cases k with
    | bottom => cases hc
    | push w k =>
      cases w with
      | callee paren rest =>
        cases rest with
        | nil => cases hc; exact ⟨paren, k, rfl⟩
        | cons => cases hc
      | argument f paren done rest =>
        cases rest with
        | nil => cases hc; exact ⟨paren, k, rfl⟩
        | cons => cases hc
      | _ => cases hc

/-- The next step is the first to report an overflow just if it calls something that can be called,
with as many arguments as it takes, while as many calls run as may. -/
theorem overflow_step {m : Machine} (h : m.control.fault? = none) :
    m.step.control.fault? = some .stackOverflow ↔ ∃ f args,
      m.control.calling? = some (.callable f, args) ∧ args.length = f.arity ∧
        maxDepth ≤ m.state.depth := by
  obtain ⟨s, c⟩ := m
  cases hc : c.calling? with
  | none =>
    exact ⟨fun ho => absurd ho (calm_step h hc), fun ⟨_, _, hcall, _⟩ => nomatch hcall⟩
  | some target =>
    obtain ⟨callee, args⟩ := target
    obtain ⟨paren, k, hstep⟩ := step_of_calling (s := s) hc
    rw [hstep, overflow_call]
    constructor
    · rintro ⟨f, rfl, hn, hd⟩
      exact ⟨f, args, rfl, hn, hd⟩
    · rintro ⟨f, args', hcall, hn, hd⟩
      cases hcall
      exact ⟨f, rfl, hn, hd⟩

end Machine

end Lox
