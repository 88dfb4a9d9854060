/-
The command line: what its arguments ask for, and what each command writes for
given input. `tokenize` lists tokens, `parse` prints trees, `run` runs a program
and `repl` runs lines as they come. Diagnostics go to the error stream, each on
lines of its own.
-/
import Lox.Session
import Lox.Token.Listing
import Lox.Tree.Printer
import Lox.Text.Blank

namespace Lox.CommandLine

/-- What the command line can be asked for. -/
inductive Command
  | tokenize (file : String) (json : Bool)
  | parse (file : String)
  | run (file : String)
  | repl
deriving DecidableEq, Repr

/-- A command, and whether it is to leave a log. -/
structure Invocation where
  command : Command
  log : Bool
deriving DecidableEq, Repr

/-- The option that asks for a log. -/
def logOption : String := "--log"

/-- The option that asks for tokens in JSON. -/
def jsonOption : String := "--json"

/-- Behind this word all others are names of files. -/
def endOfOptions : String := "--"

/-- What the words behind the name of a command say. -/
structure Options where
  log : Bool
  json : Bool
  file : Option String
deriving DecidableEq, Repr

namespace Options

/-- No options and no file. -/
def empty : Options := ⟨false, false, none⟩

/-- Takes a word as the name of a file. There is room for one, and it is not empty. -/
def addFile? (o : Options) (word : String) : Option Options :=
  if o.file.isSome || word.isEmpty then none else some { o with file := some word }

/-- Takes a word as an option, which may be given once, or else as the name of a file. A hyphen by
itself is no option. -/
def addWord? (o : Options) (word : String) : Option Options :=
  if word == logOption then if o.log then none else some { o with log := true }
  else if word == jsonOption then if o.json then none else some { o with json := true }
  else if word.startsWith "-" && word != "-" then none
  else o.addFile? word

/-- Takes all words. -/
def addWords? (o : Options) : List String → Option Options
  | [] => some o
  | word :: rest =>
    if word == endOfOptions then rest.foldlM addFile? o
    else (o.addWord? word).bind fun o => o.addWords? rest

end Options

/-- The command that a name and options stand for. -/
def Command.ofOptions? (name : String) (o : Options) : Option Command :=
  match name, o.file, o.json with
  | "tokenize", some file, json => some (.tokenize file json)
  | "parse", some file, false => some (.parse file)
  | "run", some file, false => some (.run file)
  | "repl", none, false => some .repl
  | _, _, _ => none

/-- The invocation that the words from the name of the command on stand for. -/
def Invocation.ofWords? (log : Bool) : List String → Option Invocation
  | [] => none
  | name :: words => do
    let o ← Options.empty.addWords? words
    return ⟨← Command.ofOptions? name o, log || o.log⟩

/-- What the arguments ask for. A log may be asked for once before the name of the command and
once behind it. -/
def Invocation.ofArgs? : List String → Option Invocation
  | [] => none
  | first :: rest =>
    if first == logOption then ofWords? true rest else ofWords? false (first :: rest)

/-- What a command writes, and the code with which it ends. -/
structure Transcript where
  code : Nat
  stdout : String
  stderr : String

/-- Texts, each on lines of its own. -/
def lines (texts : List String) : String := String.join (texts.map (· ++ "\n"))

/-- Diagnostics as they go to the error stream. -/
def errorLines (errors : List Diagnostic) : String := lines (errors.map Diagnostic.text)

/-- The code of a command that only reads, and may have failed to. -/
def staticCode (failed : Bool) : Nat :=
  if failed then Status.staticError.exitCode else Status.ok.exitCode

/-- Lists the tokens of a source. -/
def tokenize (json : Bool) (source : List UInt8) : Transcript :=
  let scanned := Source.scan source
  let listing :=
    if json then lines [Token.jsonListIndented scanned.tokens]
    else lines (scanned.tokens.map Token.text)
  ⟨staticCode scanned.failed, listing, errorLines scanned.errors⟩

/-- Prints the trees of a source. -/
def parse (source : List UInt8) : Transcript :=
  let reading := Reading.ofSource source 0
  ⟨staticCode reading.failed, lines (Stmt.texts reading.statements), errorLines reading.errors⟩

/-- The transcript of a report. -/
def Transcript.ofReport (r : Report) : Transcript :=
  ⟨r.status.exitCode, lines r.output, errorLines r.errors⟩

/-- The transcript of a command that fails for a reason outside the program. -/
def failure (what cause : String) : Transcript :=
  ⟨1, "", "Error: " ++ what ++ "\n\nCaused by:\n    " ++ cause ++ "\n"⟩

/-- A reason that the system gives, with its number. -/
def systemCause (reason : String) (number : Nat) : String :=
  reason ++ " (os error " ++ toString number ++ ")"

/-- Nothing has the name. -/
def noSuchFile : String := systemCause "No such file or directory" 2

/-- The name leads through a file as if that were a directory. -/
def notDirectory : String := systemCause "Not a directory" 20

/-- The name is that of a directory. -/
def isDirectory : String := systemCause "Is a directory" 21

/-- What comes of reading a file. -/
inductive FileResult
  | content (bytes : List UInt8)
  | cannotOpen (cause : String)
  | cannotRead (cause : String)

/-- The text of a file, as the bytes it is written in, or what is written if there is none. -/
def FileResult.text (file : String) : FileResult → Except Transcript (List UInt8)
  | cannotOpen cause => .error (failure ("Failed to open file " ++ Quoted.file file) cause)
  | cannotRead cause => .error (failure ("Failed to read file " ++ Quoted.file file) cause)
  | content bytes =>
    match Utf8.strict bytes with
    | .ok _ => .ok bytes
    | .error fault =>
      .error (failure ("File " ++ Quoted.file file ++ " is not valid UTF-8") fault.message)

/-- What is written before each line is read. -/
def prompt : String := "> "

/-- The lines of a text, each with its line feed; the last one may lack it. -/
def splitLines (text : String) : List String :=
  let close (line : List Char) (found : List String) : List String :=
    if line.isEmpty then found else String.ofList line.reverse :: found
  let (line, found) := text.toList.foldl (fun (line, found) c =>
    if c = '\n' then ([], String.ofList (c :: line).reverse :: found) else (c :: line, found))
    (([], []) : List Char × List String)
  (close line found).reverse

/-- Runs lines one after the other in a session, up to the first blank one; none if `fuel` steps
are not enough for one of them. -/
def replLines (fuel : Nat) (s : Session) (stdout stderr : String) :
    List String → Option Transcript
  | [] => some ⟨0, stdout ++ prompt, stderr⟩
  | line :: rest =>
    if isBlankLine line then some ⟨0, stdout ++ prompt, stderr⟩
    else match s.run fuel (Utf8.encode line) with
      | none => none
      | some (r, s) =>
        replLines fuel s (stdout ++ prompt ++ lines r.output) (stderr ++ errorLines r.errors) rest

/-- What a command writes, given what the clock reads, what comes of reading files and the text on
the input stream; none if `fuel` steps are not enough for a program. -/
def transcript (fuel : Nat) (readings : Nat → Int64) (command : Command)
    (read : String → FileResult) (input : String) : Option Transcript :=
  let withText (file : String) (use : List UInt8 → Option Transcript) : Option Transcript :=
    match (read file).text file with
    | .ok source => use source
    | .error t => some t
  match command with
  | .tokenize file json => withText file fun source => some (tokenize json source)
  | .parse file => withText file fun source => some (parse source)
  | .run file => withText file fun source =>
    ((Session.initial readings).run fuel source).map fun (r, _) => .ofReport r
  | .repl => replLines fuel (.initial readings) "" "" (splitLines input)

end Lox.CommandLine
