/-
The program. It reads what a command needs and writes what comes of it. A
machine runs in slices: before each one it is told the time, and behind it the
output is written.
-/
import Lox.CommandLine
import Std.Time.DateTime.Timestamp

namespace Lox.CommandLine

/-- The time in milliseconds since the start of 1970. -/
def wallClock : IO Int64 := do
  return (← Std.Time.Timestamp.now).toMillisecondsSinceUnixEpoch.toInt.toInt64

/-- How many steps a machine takes before its output is written. -/
def sliceLength : Nat := 4096

/-- Runs a machine to its end and writes what it prints. -/
partial def drive (m : Machine) : IO Machine := do
  let (printed, m) := m.slice sliceLength (← wallClock)
  (← IO.getStdout).putStr (lines printed)
  if m.isDone then return m else drive m

/-- Writes a transcript. -/
def Transcript.write (t : Transcript) : IO UInt32 := do
  (← IO.getStdout).putStr t.stdout
  (← IO.getStdout).flush
  (← IO.getStderr).putStr t.stderr
  return t.code.toUInt32

/-- Runs a chunk and writes what it prints and what is wrong with it. -/
def runChunk (s : Session) (source : List UInt8) : IO (UInt32 × Session) := do
  match s.load source with
  | (s, .rejected errors) => return (← (Transcript.ofReport (.rejected errors)).write, s)
  | (s, .ready m) =>
    let m ← drive m
    let code ← match m.control.outcome? with
      | some o => (Transcript.ofReport (.ended [] o)).write
      | none => pure 0
    return (code, { s with state := m.state })

/-- The reason for a failure in the words of the system. -/
def causeOf : IO.Error → String
  | .noFileOrDirectory _ number reason | .interrupted _ number reason
  | .invalidArgument _ number reason | .permissionDenied _ number reason
  | .resourceExhausted _ number reason | .inappropriateType _ number reason
  | .noSuchThing _ number reason | .otherError number reason | .resourceBusy number reason
  | .hardwareFault number reason => systemCause reason number.toNat
  | e => toString e

/-- Reads a file. -/
def readFile (file : String) : IO FileResult := do
  match ← (IO.FS.Handle.mk file .read).toBaseIO with
  | .error e => return .cannotOpen (causeOf e)
  | .ok handle =>
    match ← handle.readBinToEnd.toBaseIO with
    | .error e => return .cannotRead (causeOf e)
    | .ok bytes => return .content bytes.toList

/-- Reads a file and uses its text. -/
def withText (file : String) (use : List UInt8 → IO UInt32) : IO UInt32 := do
  match (← readFile file).text file with
  | .ok source => use source
  | .error t => t.write

/-- Reads lines and runs each one, up to the first blank one. -/
partial def replLoop (s : Session) : IO UInt32 := do
  (← IO.getStdout).putStr prompt
  (← IO.getStdout).flush
  let line ← (← IO.getStdin).getLine
  if isBlankLine line then return 0
  let (_, s) ← runChunk s (Utf8.encode line)
  replLoop s

/-- Carries out a command. -/
def Command.perform : Command → IO UInt32
  | .tokenize file json => withText file fun source => (CommandLine.tokenize json source).write
  | .parse file => withText file fun source => (CommandLine.parse source).write
  | .run file => withText file fun source => do
    let time ← wallClock
    return (← runChunk (.initial fun _ => time) source).1
  | .repl => do
    let time ← wallClock
    replLoop (.initial fun _ => time)

/-- What is written when the arguments ask for nothing that is known. -/
def usage : String :=
  "usage: lox [--log] tokenize [--json] FILE | parse FILE | run FILE | repl\n"

end Lox.CommandLine

open Lox.CommandLine in
/-- Does what the arguments ask for. -/
def main (args : List String) : IO UInt32 := do
  match Invocation.ofArgs? args with
  | none =>
    (← IO.getStderr).putStr usage
    return 2
  | some call =>
    if call.log then IO.FS.writeFile "app.log" ""
    call.command.perform
