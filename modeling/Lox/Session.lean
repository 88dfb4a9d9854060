/-
Sessions: chunks of source that run one after the other, each seeing the
globals of those before it. A chunk with a static fault does not run at all; a
chunk that fails while it runs keeps what it has done so far.
-/
import Lox.Source.Items
import Lox.Grammar.Program
import Lox.Scope.Resolve
import Lox.Machine.Step

namespace Lox

/-- A source as far as it could be read. Each pass says what it reported and whether it reported
anything. -/
structure Reading where
  statements : List Stmt
  lexErrors : List Diagnostic
  lexFailed : Bool
  parseErrors : List Diagnostic
  parseFailed : Bool
  nextId : NodeId

/-- Reads a source into trees whose nodes are numbered from `firstId` on. Faults of the lexemes do
not keep the rest from being read. -/
def Reading.ofSource (source : List UInt8) (firstId : NodeId) : Reading :=
  let scanned := Source.scan source
  let parsed := Grammar.parse scanned.tokens firstId
  ⟨parsed.statements, scanned.errors, scanned.failed, parsed.errors.map .parse, parsed.failed,
    parsed.nextId⟩

/-- All errors, in the order in which they were found. -/
def Reading.errors (r : Reading) : List Diagnostic := r.lexErrors ++ r.parseErrors

/-- Whether the source could not be read. -/
def Reading.failed (r : Reading) : Bool := r.lexFailed || r.parseFailed

/-- What lasts from one chunk to the next. -/
structure Session where
  state : State
  nextId : NodeId

/-- A session in which nothing has run. -/
def Session.initial (readings : Nat → Int64) : Session := ⟨.initial readings, 0⟩

/-- How a chunk ended. -/
inductive Status
  | ok
  /-- It has a static fault and did not run. -/
  | staticError
  /-- It stopped at a runtime error. -/
  | runtimeError
deriving DecidableEq, Repr

/-- The exit code of a program that ends so. -/
def Status.exitCode : Status → Nat
  | .ok => 0
  | .staticError => 65
  | .runtimeError => 70

/-- What came of a chunk. -/
structure Report where
  status : Status
  output : List String
  errors : List Diagnostic

/-- A chunk that was looked at and has not run yet. -/
inductive Loaded
  | rejected (errors : List Diagnostic)
  | ready (m : Machine)

/-- Reads and resolves a chunk. -/
def Session.load (s : Session) (source : List UInt8) : Session × Loaded :=
  let reading := Reading.ofSource source s.nextId
  let s := { s with nextId := reading.nextId }
  if reading.failed then (s, .rejected reading.errors)
  else
    let r := resolve reading.statements s.state.distances
    let s := { s with state := { s.state with distances := r.distances, output := #[] } }
    if r.failed then (s, .rejected (r.errors.toList.map .resolve))
    else (s, .ready (.ofProgram s.state reading.statements))

/-- The report on a chunk that was rejected. -/
def Report.rejected (errors : List Diagnostic) : Report := ⟨.staticError, [], errors⟩

/-- The report on a machine that has ended. -/
def Report.ended (output : List String) : Outcome → Report
  | .error e => ⟨.runtimeError, output, [.runtime e]⟩
  | _ => ⟨.ok, output, []⟩

/-- Runs a chunk, for `fuel` steps at most; none if these are not enough. -/
def Session.run (fuel : Nat) (s : Session) (source : List UInt8) : Option (Report × Session) :=
  match s.load source with
  | (s, .rejected errors) => some (.rejected errors, s)
  | (s, .ready m) =>
    let m := m.run fuel
    m.control.outcome?.map fun o =>
      (.ended m.state.output.toList o, { s with state := { m.state with output := #[] } })

/-- Runs chunks one after the other, whatever becomes of each of them; none if `fuel` steps are not
enough for one. -/
def Session.runAll (fuel : Nat) (s : Session) : List (List UInt8) → Option (List Report × Session)
  | [] => some ([], s)
  | source :: rest => do
    let (report, s) ← s.run fuel source
    let (reports, s) ← s.runAll fuel rest
    return (report :: reports, s)

end Lox
