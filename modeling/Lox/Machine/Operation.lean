/-
The operators on values. Those of comparison for equality take any values, plus
takes two numbers or two strings, and the others take numbers.
-/
import Lox.Value.Basic
import Lox.Diagnostic

namespace Lox

/-- A unary operator. The operator is looked at first, and then its operand. -/
def unaryOperation (op : Token) (v : Value) : Except RuntimeError Value :=
  match op.kind, v with
  | .symbol .minus, .number x => .ok (.number (-x))
  | .symbol .minus, _ => .error ⟨op, .operandNotNumber⟩
  | .symbol .bang, v => .ok (.bool !v.isTruthy)
  | _, _ => .error ⟨op, .unknownUnary⟩

/-- The operators that need two numbers. -/
def numberOperation? : TokenKind → Option (Float → Float → Value)
  | .symbol .minus => some fun x y => .number (x - y)
  | .symbol .star => some fun x y => .number (x * y)
  | .symbol .slash => some fun x y => .number (x / y)
  | .symbol .greater => some fun x y => .bool (y < x)
  | .symbol .greaterEqual => some fun x y => .bool (y ≤ x)
  | .symbol .less => some fun x y => .bool (x < y)
  | .symbol .lessEqual => some fun x y => .bool (x ≤ y)
  | _ => none

/-- A binary operator. That an operator is unknown shows only after its operands were found to be
numbers. -/
def binaryOperation (op : Token) (left right : Value) : Except RuntimeError Value :=
  match op.kind with
  | .symbol .equalEqual => .ok (.bool (left.equals right))
  | .symbol .bangEqual => .ok (.bool !left.equals right)
  | .symbol .plus =>
    match left, right with
    | .number x, .number y => .ok (.number (x + y))
    | .string s, .string t => .ok (.string (s ++ t))
    | _, _ => .error ⟨op, .operandsNotAddable⟩
  | kind =>
    match left, right with
    | .number x, .number y =>
      match numberOperation? kind with
      | some f => .ok (f x y)
      | none => .error ⟨op, .unknownBinary⟩
    | _, _ => .error ⟨op, .operandsNotNumbers⟩

/-- Whether the left side of a logical operator decides: one that is true decides `or`, one that
is false decides any other. -/
def decides (op : Token) (left : Value) : Bool :=
  if op.is .kwOr then left.isTruthy else !left.isTruthy

end Lox
