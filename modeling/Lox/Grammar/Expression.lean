/-
The rules of expressions. Binary operators stand in a table of levels, loosest
first; the operators of one level group to the left. Assignments and unary
operators group to the right.
-/
import Lox.Grammar.Cursor

namespace Lox.Grammar

open Rule

/-- A level of binary operators and the node that it makes. -/
structure Level where
  operators : List Symbol
  node : Expr → Token → Expr → Expr

/-- The levels, loosest first. -/
def levels : List Level :=
  [⟨[.kwOr], .logical⟩,
   ⟨[.kwAnd], .logical⟩,
   ⟨[.bangEqual, .equalEqual], .binary⟩,
   ⟨[.greater, .greaterEqual, .less, .lessEqual], .binary⟩,
   ⟨[.minus, .plus], .binary⟩,
   ⟨[.slash, .star], .binary⟩]

/-- The unary operators. -/
def unaryOperators : List Symbol := [.bang, .minus]

/-- Constants, names, the receiver, and expressions in parentheses. -/
def primary (expression : Rule Expr) : Rule Expr := do
  let t ← peek
  match t.kind with
  | .symbol .kwFalse => modify Cursor.advance; return .literal (.bool false)
  | .symbol .kwTrue => modify Cursor.advance; return .literal (.bool true)
  | .symbol .kwNil => modify Cursor.advance; return .literal .nil
  | .number x => modify Cursor.advance; return .literal (.number x)
  | .string text => modify Cursor.advance; return .literal (.string text)
  | .symbol .kwThis => modify Cursor.advance; return .this (← freshId) t
  | .identifier => modify Cursor.advance; return .variable (← freshId) t
  | .symbol .leftParen =>
    modify Cursor.advance
    let inner ← expression
    let _ ← require .rightParen .afterGroup
    return .grouping inner
  | _ => fail .expectedExpression

/-- An argument behind those found so far, and `more` if there is a comma. -/
def argumentsStep (expression : Rule Expr) (more : List Expr → Rule (List Expr))
    (found : List Expr) : Rule (List Expr) := do
  if maxArity ≤ found.length then report ⟨← peek, .tooManyArguments⟩
  let found := (← expression) :: found
  match ← accept? [.comma] with
  | some _ => more found
  | none => return found.reverse

/-- Arguments with commas between them, behind those found so far. Too many are reported one by one
and kept. -/
def argumentsFrom (expression : Rule Expr) : List Expr → Rule (List Expr) :=
  fix (argumentsStep expression)

/-- Arguments up to the closing parenthesis. -/
def arguments (expression : Rule Expr) : Rule (List Expr) := do
  if ← sees .rightParen then return []
  argumentsFrom expression []

/-- A call or a property of an expression, and `more` of them. -/
def callStep (expression : Rule Expr) (more : Expr → Rule Expr) (callee : Expr) : Rule Expr := do
  match ← accept? [.leftParen, .dot] with
  | none => return callee
  | some t =>
    if t.is .leftParen then
      let args ← arguments expression
      let paren ← require .rightParen .afterArguments
      more (.call callee paren args)
    else
      more (.get callee (← requireName .property))

/-- The calls and properties that follow an expression. -/
def callFrom (expression : Rule Expr) : Expr → Rule Expr := fix (callStep expression)

/-- A primary expression and the calls and properties that follow it. -/
def call (expression : Rule Expr) : Rule Expr := do
  callFrom expression (← primary expression)

/-- A unary operator in front of what comes `again`, or a call. -/
def unaryStep (expression : Rule Expr) (again : Unit → Rule Expr) (_ : Unit) : Rule Expr := do
  match ← accept? unaryOperators with
  | some op => return .unary op (← again ())
  | none => call expression

/-- Unary operators in front of a call. -/
def unary (expression : Rule Expr) : Rule Expr := fix (unaryStep expression) ()

/-- An operator of a level and the operand behind it, and `more` of them. -/
def chainStep (level : Level) (operand : Rule Expr) (more : Expr → Rule Expr) (left : Expr) :
    Rule Expr := do
  match ← accept? level.operators with
  | some op => more (level.node left op (← operand))
  | none => return left

/-- The operators of a level and the operands behind them that follow an operand. -/
def chainFrom (level : Level) (operand : Rule Expr) : Expr → Rule Expr :=
  fix (chainStep level operand)

/-- Operands with the operators of a level between them, grouped to the left. -/
def chain (level : Level) (operand : Rule Expr) : Rule Expr := do
  chainFrom level operand (← operand)

/-- All levels of binary operators over the unary ones. -/
def operation (expression : Rule Expr) : Rule Expr :=
  levels.foldr chain (unary expression)

/-- The target of an assignment is read as an expression first. Where it turns out to be no
target that is reported, and the expression stands for the whole. -/
def assignment (expression : Rule Expr) : Rule Expr := do
  let target ← operation expression
  match ← accept? [.equal] with
  | none => return target
  | some equals =>
    let value ← expression
    match target with
    | .variable _ name => return .assign (← freshId) name value
    | .get object name => return .set object name value
    | target =>
      report ⟨equals, .invalidTarget⟩
      return target

/-- An expression, whose parts are expressions `again`. -/
def expressionStep (again : Unit → Rule Expr) (_ : Unit) : Rule Expr := assignment (again ())

/-- An expression. -/
def expression : Rule Expr := fix expressionStep ()

end Lox.Grammar
