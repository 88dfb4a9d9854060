/-
The written form of trees: every node in parentheses, its operator first. A
whole number has one place after the point, so that it differs from a name.
-/
import Lox.Tree.Basic
import Lox.Decimal.Style

namespace Lox

/-- A constant; a string stands without quotes. -/
def Literal.text : Literal → String
  | .number x => Decimal.inFull ".0" x
  | .string text => text
  | .bool true => "true"
  | .bool false => "false"
  | .nil => "nil"

/-- A list in parentheses. -/
def inParens (parts : List String) : String := "(" ++ " ".intercalate parts ++ ")"

mutual

/-- An expression. -/
def Expr.text : Expr → String
  | .literal value => value.text
  | .grouping inner => inParens ["group", inner.text]
  | .unary op operand => inParens [op.lexeme, operand.text]
  | .binary left op right => inParens [op.lexeme, left.text, right.text]
  | .logical left op right => inParens [op.lexeme, left.text, right.text]
  | .variable _ name => name.lexeme
  | .assign _ name value => inParens ["=", name.lexeme, value.text]
  | .call callee _ args => inParens ("call" :: callee.text :: Expr.texts args)
  | .get object name => inParens [".", object.text, name.lexeme]
  | .set object name value => inParens ["=", inParens [".", object.text, name.lexeme], value.text]
  | .this _ _ => "this"

/-- Arguments, each by itself. -/
def Expr.texts : List Expr → List String
  | [] => []
  | e :: rest => e.text :: Expr.texts rest

end

mutual

/-- A statement. -/
def Stmt.text : Stmt → String
  | .expression e => inParens [";", e.text]
  | .print e => inParens ["print", e.text]
  | .var name none => inParens ["var", name.lexeme]
  | .var name (some e) => inParens ["var", name.lexeme, e.text]
  | .block body => inParens ("block" :: Stmt.texts body)
  | .cond test thenPart none => inParens ["if", test.text, thenPart.text]
  | .cond test thenPart (some elsePart) =>
    inParens ["if", test.text, thenPart.text, elsePart.text]
  | .while test body => inParens ["while", test.text, body.text]
  | .function decl => decl.text
  | .ret _ none => inParens ["return"]
  | .ret _ (some e) => inParens ["return", e.text]
  | .class name methods => inParens ("class" :: name.lexeme :: FunctionDecl.texts methods)

/-- Statements, each by itself. -/
def Stmt.texts : List Stmt → List String
  | [] => []
  | s :: rest => s.text :: Stmt.texts rest

/-- A function or a method. -/
def FunctionDecl.text : FunctionDecl → String
  | .mk name params body =>
    inParens ("fun" :: name.lexeme :: inParens (params.map Token.lexeme) :: Stmt.texts body)

/-- Methods, each by itself. -/
def FunctionDecl.texts : List FunctionDecl → List String
  | [] => []
  | d :: rest => d.text :: FunctionDecl.texts rest

end

end Lox
