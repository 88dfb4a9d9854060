/-
The steps of the machine. Every step looks at what the machine is about to do,
and where that is to serve what waits on top of the stack, at that. An error
takes one computation off the stack at a time, and a block or a body that it
takes off gives back the environment and the depth as it found them.
-/
import Lox.Machine.Basic
import Lox.Machine.Operation
import Lox.Value.Text

namespace Lox

/-- A function whose receiver is `o`: its environment is a new frame that holds the receiver. -/
def Store.bind (s : Store) (f : Closure) (o : Instance) : Closure × Store :=
  let (env, s) := s.childEnv f.env (Bindings.empty.set receiverName (.object o))
  let (stamp, s) := s.freshStamp
  ({ f with stamp, env }, s)

/-- A function of this declaration in an environment. -/
def Store.closure (s : Store) (decl : FunctionDecl) (env : Env) (isInit : Bool) :
    Closure × Store :=
  let (stamp, s) := s.freshStamp
  ({ stamp, decl, env, isInit }, s)

/-- The methods of a class that is declared in an environment, a later one replacing an earlier
one of its name. -/
def Store.methods (s : Store) (env : Env) : List FunctionDecl → Bindings Closure →
    Bindings Closure × Store
  | [], found => (found, s)
  | decl :: rest, found =>
    let (f, s) := s.closure decl env decl.isInit
    s.methods env rest (found.set decl.name.lexeme f)

/-- The error of a name that is not bound. -/
def undefinedVariable (name : Token) : RuntimeError := ⟨name, .undefinedVariable name.lexeme⟩

namespace State

/-- The value of a name: in the frame at the distance that is recorded for the node, or in the
nearest frame that has it. -/
def lookUp (s : State) (id : NodeId) (name : Token) : Except RuntimeError Value :=
  let found := match s.distances[id]? with
    | some d => s.store.getAt? s.env d name.lexeme
    | none => s.store.get? s.env name.lexeme
  match found with
  | some v => .ok v
  | none => .error (undefinedVariable name)

/-- The frame in which a look-up finds a name. -/
def holder? (s : State) (id : NodeId) (name : String) : Option FrameId :=
  match s.distances[id]? with
  | some d => s.store.holderAt? s.env d name
  | none => s.store.holder? s.env name

/-- A look-up reads the frame that holds the name. -/
theorem lookUp_eq (s : State) (id : NodeId) (name : Token) :
    s.lookUp id name =
      match (s.holder? id name.lexeme).bind fun f => (s.store.frame f).get? name.lexeme with
      | some v => .ok v
      | none => .error (undefinedVariable name) := by
  unfold lookUp holder?
  cases s.distances[id]? <;> rfl

/-- Binds a name in the current frame. -/
def define (s : State) (name : Token) (v : Value) : State :=
  let env := s.env
  s.modifyStore fun store => store.define env name.lexeme v

/-- Goes into a new frame inside an environment. -/
def enter (s : State) (env : Env) (vars : Bindings Value) : State :=
  let (env, s) := s.withStore fun store => store.childEnv env vars
  { s with env }

end State

/-- Carries on with a value or an error. -/
def Control.ofResult (r : Except RuntimeError Value) (k : Stack .value) : Control :=
  match r with
  | .ok v => .value v k
  | .error e => .raise e k

/-- What a function yields when its body has ended. An initializer yields its receiver. -/
def Closure.result (f : Closure) (s : Store) (ended : Flow) : Except RuntimeError Value :=
  if f.isInit then
    match s.getAt? f.env 0 receiverName with
    | some v => .ok v
    | none => .error (undefinedVariable (.identifier receiverName f.decl.name.line))
  else match ended with
    | .normal => .ok .nil
    | .returned v => .ok v

namespace Machine

/-- Writes a name in the frame in which a look-up finds it. -/
def assign (s : State) (id : NodeId) (name : Token) (v : Value) (k : Stack .value) : Machine :=
  match s.holder? id name.lexeme with
  | some f => ⟨s.modifyStore fun store => store.setVar f name.lexeme v, .value v k⟩
  | none => ⟨s, .raise (undefinedVariable name) k⟩

/-- Reads a property of an instance: its own field, or else a method of its class, bound to it. -/
def property (s : State) (o : Instance) (name : Token) (k : Stack .value) : Machine :=
  match (s.store.fields o.id).get? name.lexeme with
  | some v => ⟨s, .value v k⟩
  | none =>
    match o.cls.methods.get? name.lexeme with
    | some f =>
      let (bound, s) := s.withStore fun store => store.bind f o
      ⟨s, .value (.callable (.closure bound)) k⟩
    | none => ⟨s, .raise ⟨name, .undefinedProperty name.lexeme⟩ k⟩

/-- Starts the body of a function in a new frame that holds the arguments. -/
def enterBody (s : State) (f : Closure) (args : List Value) (k : Stack .value) : Machine :=
  let vars := Bindings.ofList ((f.decl.params.map Token.lexeme).zip args)
  let around := s.env
  ⟨{ s.enter f.env vars with depth := s.depth + 1 },
    .flow .normal (.push (.block f.decl.body around) (.push (.body f) k))⟩

/-- The seconds of a time in milliseconds. -/
def seconds (time : Int64) : Float := time.toFloat / 1000

/-- Calls a native function. -/
def callNative (s : State) (f : Native) (_args : List Value) (k : Stack .value) : Machine :=
  match f.action with
  | .clock => ⟨{ s with time := s.time.next }, .value (.number (seconds s.time.reading)) k⟩

/-- Makes an instance and starts its initializer, if the class has one. -/
def instantiate (s : State) (c : Class) (args : List Value) (k : Stack .value) : Machine :=
  let (id, s) := s.withStore Store.addObject
  let o : Instance := ⟨id, c⟩
  match c.init? with
  | none => ⟨s, .value (.object o) k⟩
  | some f =>
    let (bound, s) := s.withStore fun store => store.bind f o
    enterBody s bound args (.push (.construct o) k)

/-- Calls a value. It has to be callable, the number of arguments has to be right, and there has
to be room for one more call, in this order. -/
def call (s : State) (callee : Value) (paren : Token) (args : List Value) (k : Stack .value) :
    Machine :=
  match callee with
  | .callable f =>
    if args.length ≠ f.arity then ⟨s, .raise ⟨paren, .wrongArity f.arity args.length⟩ k⟩
    else if maxDepth ≤ s.depth then ⟨s, .raise ⟨paren, .stackOverflow⟩ k⟩
    else match f with
      | .native f => callNative s f args k
      | .closure f => enterBody s f args k
      | .class c => instantiate s c args k
  | _ => ⟨s, .raise ⟨paren, .notCallable⟩ k⟩

/-- A call fails where it stands, or does what the value is there for. -/
theorem call_cases (s : State) (callee : Value) (paren : Token) (args : List Value)
    (k : Stack .value) :
    (∃ e, call s callee paren args k = ⟨s, .raise e k⟩) ∨
      ∃ f, callee = .callable f ∧ args.length = f.arity ∧ s.depth < maxDepth ∧
        call s callee paren args k = match f with
          | .native f => callNative s f args k
          | .closure f => enterBody s f args k
          | .class c => instantiate s c args k := by
  cases callee with
  | callable f =>
    by_cases hn : args.length ≠ f.arity
    · exact .inl ⟨_, if_pos hn⟩
    · by_cases hd : maxDepth ≤ s.depth
      · exact .inl ⟨_, (if_neg hn).trans (if_pos hd)⟩
      · exact .inr ⟨f, rfl, Decidable.not_not.1 hn, Nat.lt_of_not_le hd,
          (if_neg hn).trans (if_neg hd)⟩
  | _ => exact .inl ⟨_, rfl⟩

/-- Evaluates the next argument, or calls when there is none left. -/
def nextArgument (s : State) (callee : Value) (paren : Token) (done : List Value) :
    List Expr → Stack .value → Machine
  | [], k => call s callee paren done.reverse k
  | e :: rest, k => ⟨s, .eval e (.push (.argument callee paren done rest) k)⟩

/-- Starts an expression. -/
def eval (s : State) (k : Stack .value) : Expr → Machine
  | .literal l => ⟨s, .value l.value k⟩
  | .grouping e => ⟨s, .eval e k⟩
  | .unary op e => ⟨s, .eval e (.push (.unary op) k)⟩
  | .binary left op right => ⟨s, .eval left (.push (.binaryLeft op right) k)⟩
  | .logical left op right => ⟨s, .eval left (.push (.logical op right) k)⟩
  | .variable id name => ⟨s, .ofResult (s.lookUp id name) k⟩
  | .this id keyword => ⟨s, .ofResult (s.lookUp id keyword) k⟩
  | .assign id name e => ⟨s, .eval e (.push (.assign id name) k)⟩
  | .call callee paren args => ⟨s, .eval callee (.push (.callee paren args) k)⟩
  | .get object name => ⟨s, .eval object (.push (.property name) k)⟩
  | .set object name e => ⟨s, .eval object (.push (.fieldObject name e) k)⟩

/-- Starts a statement. -/
def exec (s : State) (k : Stack .flow) : Stmt → Machine
  | .expression e => ⟨s, .eval e (.push .discard k)⟩
  | .print e => ⟨s, .eval e (.push .print k)⟩
  | .var name none => ⟨s.define name .nil, .flow .normal k⟩
  | .var name (some e) => ⟨s, .eval e (.push (.define name) k)⟩
  | .block body =>
    let around := s.env
    ⟨s.enter around .empty, .flow .normal (.push (.block body around) k)⟩
  | .cond test thenPart elsePart => ⟨s, .eval test (.push (.branch thenPart elsePart) k)⟩
  | .while test body => ⟨s, .eval test (.push (.loopTest test body) k)⟩
  | .function decl =>
    let env := s.env
    let (f, s) := s.withStore fun store => store.closure decl env false
    ⟨s.define decl.name (.callable (.closure f)), .flow .normal k⟩
  | .ret _ none => ⟨s, .flow (.returned .nil) k⟩
  | .ret _ (some e) => ⟨s, .eval e (.push .ret k)⟩
  | .class name decls =>
    let env := s.env
    let (methods, s) := s.withStore fun store => store.methods env decls .empty
    let (stamp, s) := s.withStore Store.freshStamp
    ⟨s.define name (.callable (.class ⟨stamp, name.lexeme, methods⟩)), .flow .normal k⟩

/-- Serves a value to what waits for it. -/
def serveValue (s : State) (v : Value) {b : Yield} : Waiting .value b → Stack b → Machine
  | .unary op, k => ⟨s, .ofResult (unaryOperation op v) k⟩
  | .binaryLeft op right, k => ⟨s, .eval right (.push (.binaryRight v op) k)⟩
  | .binaryRight left op, k => ⟨s, .ofResult (binaryOperation op left v) k⟩
  | .logical op right, k => if decides op v then ⟨s, .value v k⟩ else ⟨s, .eval right k⟩
  | .assign id name, k => assign s id name v k
  | .callee paren args, k => nextArgument s v paren [] args k
  | .argument callee paren done rest, k => nextArgument s callee paren (v :: done) rest k
  | .property name, k =>
    match v with
    | .object o => property s o name k
    | _ => ⟨s, .raise ⟨name, .propertyOfNonInstance⟩ k⟩
  | .fieldObject name e, k =>
    match v with
    | .object o => ⟨s, .eval e (.push (.fieldValue o name) k)⟩
    | _ => ⟨s, .raise ⟨name, .fieldOfNonInstance⟩ k⟩
  | .fieldValue o name, k =>
    ⟨s.modifyStore fun store => store.setField o.id name.lexeme v, .value v k⟩
  | .construct o, k => ⟨s, .value (.object o) k⟩
  | .discard, k => ⟨s, .flow .normal k⟩
  | .print, k => ⟨{ s with output := s.output.push v.text }, .flow .normal k⟩
  | .define name, k => ⟨s.define name v, .flow .normal k⟩
  | .branch thenPart elsePart, k =>
    if v.isTruthy then ⟨s, .exec thenPart k⟩
    else match elsePart with
      | some elsePart => ⟨s, .exec elsePart k⟩
      | none => ⟨s, .flow .normal k⟩
  | .loopTest test body, k =>
    if v.isTruthy then ⟨s, .exec body (.push (.loopBody test body) k)⟩ else ⟨s, .flow .normal k⟩
  | .ret, k => ⟨s, .flow (.returned v) k⟩

/-- Serves the end of a statement to what waits for it. -/
def serveFlow (s : State) (f : Flow) {b : Yield} : Waiting .flow b → Stack b → Machine
  | .block rest around, k =>
    match f, rest with
    | .normal, next :: rest => ⟨s, .exec next (.push (.block rest around) k)⟩
    | f, _ => ⟨{ s with env := around }, .flow f k⟩
  | .loopBody test body, k =>
    match f with
    | .normal => ⟨s, .eval test (.push (.loopTest test body) k)⟩
    | .returned v => ⟨s, .flow (.returned v) k⟩
  | .body closure, k =>
    ⟨{ s with depth := s.depth - 1 }, .ofResult (closure.result s.store f) k⟩
  | .program rest, k =>
    match rest with
    | next :: rest => ⟨s, .exec next (.push (.program rest) k)⟩
    | [] => ⟨s, .flow .normal k⟩

/-- What an error leaves of the state when it takes a waiting computation off the stack. -/
def unwind (s : State) {a b : Yield} : Waiting a b → State
  | .block _ around => { s with env := around }
  | .body _ => { s with depth := s.depth - 1 }
  | _ => s

/-- One step. A machine that has nothing left to do stays as it is. -/
def step : Machine → Machine
  | ⟨s, .eval e k⟩ => eval s k e
  | ⟨s, .exec stmt k⟩ => exec s k stmt
  | ⟨s, .value v (.push w k)⟩ => serveValue s v w k
  | ⟨s, .flow f (.push w k)⟩ => serveFlow s f w k
  | ⟨s, .raise e (.push w k)⟩ => ⟨unwind s w, .raise e k⟩
  | ⟨s, .value v .bottom⟩ => ⟨s, .value v .bottom⟩
  | ⟨s, .flow f .bottom⟩ => ⟨s, .flow f .bottom⟩
  | ⟨s, .raise (a := a) e .bottom⟩ => ⟨s, .raise (a := a) e .bottom⟩

/-- Whether nothing is left to do. -/
def isDone (m : Machine) : Bool := m.control.outcome?.isSome

theorem step_of_isDone {m : Machine} (h : m.isDone = true) : m.step = m := by
  obtain ⟨s, c⟩ := m
  cases c with
  | eval | exec => simp [isDone, Control.outcome?] at h
  | value v k => cases k <;> simp_all [isDone, Control.outcome?, step]
  | flow f k => cases k <;> simp_all [isDone, Control.outcome?, step]
  | raise e k => cases k <;> simp_all [isDone, Control.outcome?, step]

/-- Takes `n` steps, or fewer if nothing is left to do before. -/
def run : Nat → Machine → Machine
  | 0, m => m
  | n + 1, m => if m.isDone then m else run n m.step

@[simp] theorem run_zero (m : Machine) : run 0 m = m := rfl

theorem run_of_isDone {m : Machine} (h : m.isDone = true) (n : Nat) : run n m = m := by
  cases n <;> simp [run, h]

theorem run_succ (n : Nat) (m : Machine) : run (n + 1) m = run n m.step := by
  by_cases h : m.isDone = true
  · rw [run_of_isDone h, step_of_isDone h, run_of_isDone h]
  · rw [run, if_neg h]

theorem run_add (n k : Nat) (m : Machine) : run (n + k) m = run k (run n m) := by
  induction n generalizing m with
  | zero => rw [Nat.zero_add, run_zero]
  | succ n ih => rw [Nat.succ_add, run_succ, ih, run_succ]

/-- A slice of a run: `n` steps in which the clock reads the same time. What was printed meanwhile
is given away. -/
def slice (n : Nat) (time : Int64) (m : Machine) : List String × Machine :=
  let m := run n (m.withReadings fun _ => time)
  (m.state.output.toList, { m with state := { m.state with output := #[] } })

/-- The machine that executes a statement in a state. -/
def ofStmt (s : State) (stmt : Stmt) : Machine := ⟨s, .exec stmt .bottom⟩

/-- The machine that evaluates an expression in a state. -/
def ofExpr (s : State) (e : Expr) : Machine := ⟨s, .eval e .bottom⟩

/-- The machine that executes a program in a state. A `return` outside all functions ends only its
own statement. -/
def ofProgram (s : State) (program : List Stmt) : Machine :=
  ⟨s, .flow .normal (.push (.program program) .bottom)⟩

end Machine

end Lox
