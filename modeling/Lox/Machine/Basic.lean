/-
The machine that runs programs, at rest. What is left to do is a stack of
waiting computations, each of which takes what the one above it yields, a value
or the way in which a statement ended, and yields one of these in its turn. The
types of the stack leave no room for one that waits for the wrong thing.
-/
import Lox.Store
import Lox.Diagnostic
import Std.Data.HashMap

namespace Lox

/-- What a computation may yield. -/
inductive Yield
  /-- The value of an expression. -/
  | value
  /-- The way in which a statement ended. -/
  | flow
deriving DecidableEq, Repr

/-- How a statement ended. -/
inductive Flow
  | normal
  | returned (v : Value)

/-- A computation that takes what the first type says and yields what the second one says. -/
inductive Waiting : Yield → Yield → Type
  | unary (op : Token) : Waiting .value .value
  | binaryLeft (op : Token) (right : Expr) : Waiting .value .value
  | binaryRight (left : Value) (op : Token) : Waiting .value .value
  | logical (op : Token) (right : Expr) : Waiting .value .value
  | assign (id : NodeId) (name : Token) : Waiting .value .value
  | callee (paren : Token) (args : List Expr) : Waiting .value .value
  /-- A call with its arguments so far, latest first, and those still to be evaluated. -/
  | argument (callee : Value) (paren : Token) (done : List Value) (rest : List Expr) :
    Waiting .value .value
  | property (name : Token) : Waiting .value .value
  | fieldObject (name : Token) (value : Expr) : Waiting .value .value
  | fieldValue (object : Instance) (name : Token) : Waiting .value .value
  /-- The initializer of a new instance runs. -/
  | construct (object : Instance) : Waiting .value .value
  | discard : Waiting .value .flow
  | print : Waiting .value .flow
  | define (name : Token) : Waiting .value .flow
  | branch (thenPart : Stmt) (elsePart : Option Stmt) : Waiting .value .flow
  | loopTest (test : Expr) (body : Stmt) : Waiting .value .flow
  | loopBody (test : Expr) (body : Stmt) : Waiting .flow .flow
  | ret : Waiting .value .flow
  /-- The rest of a block, and the environment around it. -/
  | block (rest : List Stmt) (around : Env) : Waiting .flow .flow
  /-- The body of a function runs. -/
  | body (f : Closure) : Waiting .flow .value
  /-- The rest of a program. -/
  | program (rest : List Stmt) : Waiting .flow .flow

/-- Waiting computations, the first to be served on top. -/
inductive Stack : Yield → Type
  | bottom {a : Yield} : Stack a
  | push {a b : Yield} (w : Waiting a b) (rest : Stack b) : Stack a

/-- What the machine is about to do. -/
inductive Control
  | eval (e : Expr) (k : Stack .value)
  | exec (s : Stmt) (k : Stack .flow)
  /-- A value goes to what waits for it. -/
  | value (v : Value) (k : Stack .value)
  /-- The end of a statement goes to what waits for it. -/
  | flow (f : Flow) (k : Stack .flow)
  /-- An error unwinds the stack. -/
  | raise {a : Yield} (e : RuntimeError) (k : Stack a)

/-- A clock. Nothing is known of what it reads: it may stand still, jump or go back. -/
structure Clock where
  /-- What it reads each time that it is asked, in milliseconds since the start of 1970. -/
  readings : Nat → Int64
  /-- How often it was asked. -/
  asked : Nat

/-- What the clock reads when it is asked next. -/
def Clock.reading (c : Clock) : Int64 := c.readings c.asked

/-- The clock behind its next reading. -/
def Clock.next (c : Clock) : Clock := { c with asked := c.asked + 1 }

/-- The state of a run. -/
structure State where
  store : Store
  /-- The environment of what is being carried out. -/
  env : Env
  /-- How many calls are active. -/
  depth : Nat
  /-- The distances of the names that were resolved. -/
  distances : Std.HashMap NodeId Nat
  /-- The texts that were printed. -/
  output : Array String
  /-- The clock that tells programs the time. -/
  time : Clock

/-- Does something to the store that yields something. -/
@[inline] def State.withStore {α : Type} (s : State) (f : Store → α × Store) : α × State :=
  match s with
  | ⟨store, env, depth, distances, output, time⟩ =>
    let (a, store) := f store
    (a, ⟨store, env, depth, distances, output, time⟩)

/-- Does something to the store. -/
@[inline] def State.modifyStore (s : State) (f : Store → Store) : State :=
  match s with
  | ⟨store, env, depth, distances, output, time⟩ =>
    ⟨f store, env, depth, distances, output, time⟩

theorem State.withStore_eq {α : Type} (s : State) (f : Store → α × Store) :
    s.withStore f = ((f s.store).1, { s with store := (f s.store).2 }) := rfl

/-- The state with a clock that reads something else. -/
def State.withReadings (s : State) (readings : Nat → Int64) : State :=
  { s with time := { s.time with readings } }

/-- The most calls that may be active at a time. -/
def maxDepth : Nat := 10000

/-- A machine in the midst of its work. -/
structure Machine where
  state : State
  control : Control

/-- The machine with a clock that reads something else. -/
def Machine.withReadings (m : Machine) (readings : Nat → Int64) : Machine :=
  { m with state := m.state.withReadings readings }

/-- How a run can end. -/
inductive Outcome
  | value (v : Value)
  | flow (f : Flow)
  | error (e : RuntimeError)

/-- The outcome of a machine that has nothing left to do. -/
def Control.outcome? : Control → Option Outcome
  | .value v .bottom => some (.value v)
  | .flow f .bottom => some (.flow f)
  | .raise e .bottom => some (.error e)
  | _ => none

/-- The environment of globals, which has one frame. -/
def globals : Env := ⟨0, []⟩

/-- The function that tells the time. -/
def clock : Native := ⟨0, "clock", 0, .clock⟩

/-- The state in which nothing has run: one frame, in which `clock` is bound, and a clock that was
never asked. -/
def State.initial (readings : Nat → Int64) : State where
  store := { Store.empty with
    frames := #[Bindings.empty.set clock.name (.callable (.native clock))], nextStamp := 1 }
  env := globals
  depth := 0
  distances := {}
  output := #[]
  time := ⟨readings, 0⟩

end Lox
