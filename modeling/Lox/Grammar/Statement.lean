/-
The rules of statements and declarations. A declaration that fails is reported
and skipped up to the next boundary between statements; the declarations around
it go on.
-/
import Lox.Grammar.Expression

namespace Lox.Grammar

open Rule

/-- An expression, unless this symbol comes next. -/
def expressionUnless (s : Symbol) : Rule (Option Expr) := do
  if ← sees s then return none else return some (← expression)

/-- A declaration behind those found so far, and `more` up to a closing brace or the end. -/
def declarationsStep (declaration : Rule (Option Stmt)) (more : List Stmt → Rule (List Stmt))
    (found : List Stmt) : Rule (List Stmt) := do
  if (← sees .rightBrace) || (← atEnd) then return found.reverse
  match ← declaration with
  | some s => more (s :: found)
  | none => more found

/-- Declarations up to a closing brace or the end, behind those found so far. Those that fail are
left out. -/
def declarationsFrom (declaration : Rule (Option Stmt)) : List Stmt → Rule (List Stmt) :=
  fix (declarationsStep declaration)

/-- Declarations up to a closing brace or the end. -/
def declarations (declaration : Rule (Option Stmt)) : Rule (List Stmt) :=
  declarationsFrom declaration []

/-- The statements of a block whose opening brace has been read. -/
def block (declaration : Rule (Option Stmt)) : Rule (List Stmt) := do
  let body ← declarations declaration
  let _ ← require .rightBrace .afterBlock
  return body

/-- A variable declaration behind its keyword. -/
def varDeclaration : Rule Stmt := do
  let name ← requireName .variableDecl
  let init ← match ← accept? [.equal] with
    | some _ => some <$> expression
    | none => pure none
  let _ ← require .semicolon .afterDeclaration
  return .var name init

/-- An expression as a statement. -/
def expressionStatement : Rule Stmt := do
  let e ← expression
  let _ ← require .semicolon .afterExpression
  return .expression e

/-- A loop in terms of `while`: a block around it holds the initializer, a block inside it the
increment behind the body, and a missing condition is true. -/
def forLoop (init : Option Stmt) (test step : Option Expr) (body : Stmt) : Stmt :=
  let body := match step with
    | some e => .block [body, .expression e]
    | none => body
  let loop := .while (test.getD (.literal (.bool true))) body
  match init with
  | some s => .block [s, loop]
  | none => loop

/-- What stands first in the parentheses of a `for`: a declaration, an expression, or nothing, with
the semicolon behind it. -/
def forInitializer : Rule (Option Stmt) := do
  match ← accept? [.semicolon, .kwVar] with
  | none => some <$> expressionStatement
  | some t => if t.is .kwVar then some <$> varDeclaration else pure none

/-- A `for` loop behind its keyword. -/
def forStatement (statement : Rule Stmt) : Rule Stmt := do
  let _ ← require .leftParen .afterFor
  let init ← forInitializer
  let test ← expressionUnless .semicolon
  let _ ← require .semicolon .afterLoopCondition
  let step ← expressionUnless .rightParen
  let _ ← require .rightParen .afterForClauses
  return forLoop init test step (← statement)

/-- A condition in parentheses. -/
def condition (place : Place) : Rule Expr := do
  let _ ← require .leftParen place
  let test ← expression
  let _ ← require .rightParen .afterCondition
  return test

/-- A conditional behind its keyword. An `else` belongs to the nearest `if`. -/
def ifStatement (statement : Rule Stmt) : Rule Stmt := do
  let test ← condition .afterIf
  let thenPart ← statement
  match ← accept? [.kwElse] with
  | some _ => return .cond test thenPart (some (← statement))
  | none => return .cond test thenPart none

/-- The keywords and the mark that decide which statement follows. -/
def statementStarts : List Symbol :=
  [.kwFor, .kwIf, .kwWhile, .kwReturn, .leftBrace, .kwPrint]

/-- A statement, whose parts are statements `again`. -/
def statementStep (declaration : Rule (Option Stmt)) (again : Unit → Rule Stmt) (_ : Unit) :
    Rule Stmt := do
  match ← accept? statementStarts with
  | none => expressionStatement
  | some t =>
    match t.kind with
    | .symbol .kwFor => forStatement (again ())
    | .symbol .kwIf => ifStatement (again ())
    | .symbol .kwWhile => return .while (← condition .afterWhile) (← again ())
    | .symbol .kwReturn =>
      let value ← expressionUnless .semicolon
      let _ ← require .semicolon .afterReturnValue
      return .ret t value
    | .symbol .leftBrace => return .block (← block declaration)
    | _ =>
      let e ← expression
      let _ ← require .semicolon .afterValue
      return .print e

/-- A statement. -/
def statement (declaration : Rule (Option Stmt)) : Rule Stmt := fix (statementStep declaration) ()

/-- A parameter behind those found so far, and `more` if there is a comma. -/
def parametersStep (more : List Token → Rule (List Token)) (found : List Token) :
    Rule (List Token) := do
  if maxArity ≤ found.length then report ⟨← peek, .tooManyParameters⟩
  let found := (← requireName .parameter) :: found
  match ← accept? [.comma] with
  | some _ => more found
  | none => return found.reverse

/-- Parameters with commas between them, behind those found so far. Too many are reported one by one
and kept. -/
def parametersFrom : List Token → Rule (List Token) := fix parametersStep

/-- Parameters up to the closing parenthesis. -/
def parameters : Rule (List Token) := do
  if ← sees .rightParen then return []
  parametersFrom []

/-- A function or a method from its name on. -/
def function (sort : FunctionSort) (declaration : Rule (Option Stmt)) : Rule FunctionDecl := do
  let name ← requireName (.functionDecl sort)
  let _ ← require .leftParen (.afterFunctionName sort)
  let params ← parameters
  let _ ← require .rightParen .afterParameters
  let _ ← require .leftBrace (.beforeFunctionBody sort)
  return .mk name params (← block declaration)

/-- A method behind those found so far, and `more` up to a closing brace or the end. -/
def methodsStep (declaration : Rule (Option Stmt))
    (more : List FunctionDecl → Rule (List FunctionDecl)) (found : List FunctionDecl) :
    Rule (List FunctionDecl) := do
  if (← sees .rightBrace) || (← atEnd) then return found.reverse
  more ((← function .method declaration) :: found)

/-- Methods up to a closing brace or the end, behind those found so far. -/
def methodsFrom (declaration : Rule (Option Stmt)) : List FunctionDecl → Rule (List FunctionDecl) :=
  fix (methodsStep declaration)

/-- Methods up to a closing brace or the end. -/
def methods (declaration : Rule (Option Stmt)) : Rule (List FunctionDecl) :=
  methodsFrom declaration []

/-- A class behind its keyword. -/
def classDeclaration (declaration : Rule (Option Stmt)) : Rule Stmt := do
  let name ← requireName .classDecl
  let _ ← require .leftBrace .beforeClassBody
  let methods ← methods declaration
  let _ ← require .rightBrace .afterClassBody
  return .class name methods

/-- A declaration or a statement, in which `declaration` reads those in blocks. -/
def declared (declaration : Rule (Option Stmt)) : Rule Stmt := do
  match ← accept? [.kwClass, .kwFun, .kwVar] with
  | none => statement declaration
  | some t =>
    match t.kind with
    | .symbol .kwClass => classDeclaration declaration
    | .symbol .kwFun => return .function (← function .function declaration)
    | _ => varDeclaration

/-- The keywords that start a statement. -/
def isBoundary (t : Token) : Bool :=
  [.kwClass, .kwFun, .kwVar, .kwFor, .kwIf, .kwWhile, .kwPrint, .kwReturn].any t.is

/-- The tokens from the next boundary on: behind a semicolon, or at a keyword that starts a
statement. -/
def fromBoundary (previous : Token) : List Token → List Token
  | [] => []
  | t :: rest =>
    if previous.is .semicolon || isBoundary t then t :: rest else fromBoundary t rest

/-- Skips the token at which a rule failed and all others up to the next boundary. -/
def synchronize (c : Cursor) : Cursor :=
  match c.rest with
  | [] => c
  | t :: rest => c.goTo (fromBoundary t rest)

/-- A declaration, in whose blocks declarations come `again`, or nothing if it fails; the failure is
reported. -/
def declarationStep (again : Unit → Rule (Option Stmt)) (_ : Unit) : Rule (Option Stmt) :=
  recover (some <$> declared (again ())) fun e => do
    report e
    modify synchronize
    return none

/-- A declaration, or nothing if it fails. -/
def declaration : Rule (Option Stmt) := fix declarationStep ()

end Lox.Grammar
