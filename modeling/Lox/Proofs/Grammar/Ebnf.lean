/-
The grammar of programs as it is documented: for each production a relation
between lists of tokens and the trees that they stand for. Where a production
repeats an operator or a suffix, the tree groups to the left; where it uses
itself at its end, to the right.

As a grammar of token lists it is ambiguous in one place, the `else` behind two
open `if`s. With `nearest` set, such an `else` may only go to the nearest one.

The numbers of the nodes are no part of the grammar, so a tree of a list of
tokens may have any; `bare` forgets them.
-/
import Lox.Tree.Basic

namespace Lox

/-! ## Trees without numbers -/

mutual

/-- The tree with all its numbers zero. -/
def Expr.bare : Expr → Expr
  | .literal l => .literal l
  | .grouping inner => .grouping inner.bare
  | .unary op operand => .unary op operand.bare
  | .binary left op right => .binary left.bare op right.bare
  | .logical left op right => .logical left.bare op right.bare
  | .variable _ name => .variable 0 name
  | .assign _ name value => .assign 0 name value.bare
  | .call callee paren args => .call callee.bare paren (Expr.bareAll args)
  | .get object name => .get object.bare name
  | .set object name value => .set object.bare name value.bare
  | .this _ keyword => .this 0 keyword

def Expr.bareAll : List Expr → List Expr
  | [] => []
  | e :: rest => e.bare :: Expr.bareAll rest

end

mutual

/-- The tree with all its numbers zero. -/
def Stmt.bare : Stmt → Stmt
  | .expression e => .expression e.bare
  | .print e => .print e.bare
  | .var name none => .var name none
  | .var name (some e) => .var name (some e.bare)
  | .block body => .block (Stmt.bareAll body)
  | .cond test thenPart none => .cond test.bare thenPart.bare none
  | .cond test thenPart (some elsePart) => .cond test.bare thenPart.bare (some elsePart.bare)
  | .while test body => .while test.bare body.bare
  | .function decl => .function decl.bare
  | .ret keyword none => .ret keyword none
  | .ret keyword (some e) => .ret keyword (some e.bare)
  | .class name methods => .class name (FunctionDecl.bareAll methods)

def Stmt.bareAll : List Stmt → List Stmt
  | [] => []
  | s :: rest => s.bare :: Stmt.bareAll rest

def FunctionDecl.bare : FunctionDecl → FunctionDecl
  | .mk name params body => .mk name params (Stmt.bareAll body)

def FunctionDecl.bareAll : List FunctionDecl → List FunctionDecl
  | [] => []
  | d :: rest => d.bare :: FunctionDecl.bareAll rest

end

/-! ## Lists of arguments and parameters -/

mutual

/-- No list of arguments inside has more than 255 elements. -/
def Expr.WithinArity : Expr → Prop
  | .literal _ | .variable .. | .this .. => True
  | .grouping e | .unary _ e | .assign _ _ e | .get e _ => e.WithinArity
  | .binary left _ right | .logical left _ right => left.WithinArity ∧ right.WithinArity
  | .call callee _ args => callee.WithinArity ∧ args.length ≤ 255 ∧ Expr.AllWithinArity args
  | .set object _ value => object.WithinArity ∧ value.WithinArity

def Expr.AllWithinArity : List Expr → Prop
  | [] => True
  | e :: rest => e.WithinArity ∧ Expr.AllWithinArity rest

end

mutual

/-- No list of arguments or parameters inside has more than 255 elements. -/
def Stmt.WithinArity : Stmt → Prop
  | .expression e | .print e | .var _ (some e) | .ret _ (some e) => e.WithinArity
  | .var _ none | .ret _ none => True
  | .block body => Stmt.AllWithinArity body
  | .cond test thenPart none => test.WithinArity ∧ thenPart.WithinArity
  | .cond test thenPart (some elsePart) =>
    test.WithinArity ∧ thenPart.WithinArity ∧ elsePart.WithinArity
  | .while test body => test.WithinArity ∧ body.WithinArity
  | .function decl => decl.WithinArity
  | .class _ methods => FunctionDecl.AllWithinArity methods

def Stmt.AllWithinArity : List Stmt → Prop
  | [] => True
  | s :: rest => s.WithinArity ∧ Stmt.AllWithinArity rest

def FunctionDecl.WithinArity : FunctionDecl → Prop
  | .mk _ params body => params.length ≤ 255 ∧ Stmt.AllWithinArity body

def FunctionDecl.AllWithinArity : List FunctionDecl → Prop
  | [] => True
  | d :: rest => d.WithinArity ∧ FunctionDecl.AllWithinArity rest

end

namespace Ebnf

/-! ## Expressions -/

/-- The productions with binary operators, loosest first. -/
inductive Layer
  | logicOr | logicAnd | equality | comparison | term | factor
deriving DecidableEq, Repr

namespace Layer

def operators : Layer → List Symbol
  | logicOr => [.kwOr]
  | logicAnd => [.kwAnd]
  | equality => [.bangEqual, .equalEqual]
  | comparison => [.greater, .greaterEqual, .less, .lessEqual]
  | term => [.minus, .plus]
  | factor => [.slash, .star]

/-- The production of the operands, if they may have binary operators in their turn. -/
def tighter? : Layer → Option Layer
  | logicOr => some logicAnd
  | logicAnd => some equality
  | equality => some comparison
  | comparison => some term
  | term => some factor
  | factor => none

def node : Layer → Expr → Token → Expr → Expr
  | logicOr | logicAnd => .logical
  | equality | comparison | term | factor => .binary

end Layer

/-- A constant and the token it is written as. -/
inductive Constant : Token → Literal → Prop
  | number {t x} : t.kind = .number x → Constant t (.number x)
  | string {t text} : t.kind = .string text → Constant t (.string text)
  | true {t} : t.is .kwTrue = true → Constant t (.bool true)
  | false {t} : t.is .kwFalse = true → Constant t (.bool false)
  | nil {t} : t.is .kwNil = true → Constant t .nil

mutual

/-- `expression → assignment`,
`assignment → ( call "." )? IDENT "=" assignment | logic_or`. -/
inductive Assignment : List Token → Expr → Prop
  | variable {name equals id} {ts : List Token} {e : Expr} :
    name.isIdentifier = true → equals.is .equal = true → Assignment ts e →
    Assignment (name :: equals :: ts) (.assign id name e)
  | property {us ts : List Token} {object e : Expr} {dot name equals} :
    Call us object → dot.is .dot = true → name.isIdentifier = true → equals.is .equal = true →
    Assignment ts e → Assignment (us ++ dot :: name :: equals :: ts) (.set object name e)
  | operation {ts : List Token} {e : Expr} : Operation .logicOr ts e → Assignment ts e

/-- `layer → operand ( operator operand )*`, from `logic_or` to `factor`. -/
inductive Operation : Layer → List Token → Expr → Prop
  | operand {layer ts e} : Operand layer ts e → Operation layer ts e
  | operator {layer : Layer} {ts us left op right} : Operation layer ts left →
    layer.operators.any op.is = true → Operand layer us right →
    Operation layer (ts ++ op :: us) (layer.node left op right)

/-- The operands of a layer: the next one, or unary expressions. -/
inductive Operand : Layer → List Token → Expr → Prop
  | layer {layer next : Layer} {ts e} : layer.tighter? = some next → Operation next ts e →
    Operand layer ts e
  | unary {layer : Layer} {ts e} : layer.tighter? = none → Unary ts e → Operand layer ts e

/-- `unary → ( "!" | "-" ) unary | call`. -/
inductive Unary : List Token → Expr → Prop
  | operator {op : Token} {ts e} : [Symbol.bang, .minus].any op.is = true → Unary ts e →
    Unary (op :: ts) (.unary op e)
  | call {ts e} : Call ts e → Unary ts e

/-- `call → primary ( "(" arguments? ")" | "." IDENT )*`. -/
inductive Call : List Token → Expr → Prop
  | primary {ts e} : Primary ts e → Call ts e
  | call {us ts : List Token} {callee args} {open' close : Token} : Call us callee →
    open'.is .leftParen = true → Arguments ts args → close.is .rightParen = true →
    Call (us ++ open' :: (ts ++ [close])) (.call callee close args)
  | property {us : List Token} {object} {dot name : Token} : Call us object →
    dot.is .dot = true → name.isIdentifier = true → Call (us ++ [dot, name]) (.get object name)

/-- `arguments?`. -/
inductive Arguments : List Token → List Expr → Prop
  | none : Arguments [] []
  | some {ts es} : ArgumentList ts es → Arguments ts es

/-- `arguments → expression ( "," expression )*`. -/
inductive ArgumentList : List Token → List Expr → Prop
  | last {ts e} : Assignment ts e → ArgumentList ts [e]
  | more {ts us e es} {comma : Token} : Assignment ts e → comma.is .comma = true →
    ArgumentList us es → ArgumentList (ts ++ comma :: us) (e :: es)

/-- `primary → NUMBER | STRING | "true" | "false" | "nil" | "this" | IDENT | "(" expression ")"`. -/
inductive Primary : List Token → Expr → Prop
  | literal {t l} : Constant t l → Primary [t] (.literal l)
  | this {t : Token} {id} : t.is .kwThis = true → Primary [t] (.this id t)
  | variable {t : Token} {id} : t.isIdentifier = true → Primary [t] (.variable id t)
  | grouping {ts e} {open' close : Token} : open'.is .leftParen = true → Assignment ts e →
    close.is .rightParen = true → Primary (open' :: (ts ++ [close])) (.grouping e)

end

/-! ## Statements -/

/-- `varDecl → "var" IDENT ( "=" expression )? ";"`. -/
inductive VarDeclaration : List Token → Stmt → Prop
  | plain {keyword name semicolon : Token} : keyword.is .kwVar = true →
    name.isIdentifier = true → semicolon.is .semicolon = true →
    VarDeclaration [keyword, name, semicolon] (.var name none)
  | initialized {keyword name equals semicolon : Token} {ts e} : keyword.is .kwVar = true →
    name.isIdentifier = true → equals.is .equal = true → Assignment ts e →
    semicolon.is .semicolon = true →
    VarDeclaration (keyword :: name :: equals :: (ts ++ [semicolon])) (.var name (some e))

/-- `exprStmt → expression ";"`. -/
inductive ExpressionStatement : List Token → Stmt → Prop
  | intro {ts e} {semicolon : Token} : Assignment ts e → semicolon.is .semicolon = true →
    ExpressionStatement (ts ++ [semicolon]) (.expression e)

/-- `expression?`. -/
inductive OptionalExpression : List Token → Option Expr → Prop
  | none : OptionalExpression [] none
  | some {ts e} : Assignment ts e → OptionalExpression ts (some e)

/-- `varDecl | exprStmt | ";"`. -/
inductive ForInitializer : List Token → Option Stmt → Prop
  | variable {ts s} : VarDeclaration ts s → ForInitializer ts (some s)
  | expression {ts s} : ExpressionStatement ts s → ForInitializer ts (some s)
  | none {semicolon : Token} : semicolon.is .semicolon = true → ForInitializer [semicolon] none

/-- `parameters → IDENT ( "," IDENT )*`. -/
inductive ParameterList : List Token → List Token → Prop
  | last {name : Token} : name.isIdentifier = true → ParameterList [name] [name]
  | more {name comma : Token} {ts names} : name.isIdentifier = true → comma.is .comma = true →
    ParameterList ts names → ParameterList (name :: comma :: ts) (name :: names)

/-- `parameters?`. -/
inductive Parameters : List Token → List Token → Prop
  | none : Parameters [] []
  | some {ts names} : ParameterList ts names → Parameters ts names

/-- The body of a loop, with the increment behind it. -/
def withIncrement (body : Stmt) : Option Expr → Stmt
  | none => body
  | some e => .block [body, .expression e]

/-- A loop that runs while its condition holds, or for ever. -/
def whileTrue (body : Stmt) : Option Expr → Stmt
  | none => .while (.literal (.bool true)) body
  | some e => .while e body

/-- A loop behind its initializer, in a block of their own. -/
def withInitializer (loop : Stmt) : Option Stmt → Stmt
  | none => loop
  | some s => .block [s, loop]

/-- What a `for` loop stands for. -/
def whileForm (init : Option Stmt) (test step : Option Expr) (body : Stmt) : Stmt :=
  withInitializer (whileTrue (withIncrement body step) test) init

/-- What holds of a part, if it is there. -/
def Optional {α : Type} (P : α → Prop) : Option α → Prop
  | none => True
  | some a => P a

theorem withinArity_whileForm {init : Option Stmt} {test step : Option Expr} {body : Stmt} :
    (whileForm init test step body).WithinArity ↔ Optional Stmt.WithinArity init ∧
      Optional Expr.WithinArity test ∧ Optional Expr.WithinArity step ∧ body.WithinArity := by
  cases init <;> cases test <;> cases step <;>
    simp [whileForm, withInitializer, whileTrue, withIncrement, Optional, Stmt.WithinArity,
      Stmt.AllWithinArity, Expr.WithinArity, and_comm]

mutual

/-- `declaration → classDecl | funDecl | varDecl | statement`,
`classDecl → "class" IDENT "{" function* "}"`, `funDecl → "fun" function`. -/
inductive Declaration (nearest : Bool) : List Token → Stmt → Prop
  | class {keyword name open' close : Token} {ts decls} : keyword.is .kwClass = true →
    name.isIdentifier = true → open'.is .leftBrace = true → Methods nearest ts decls →
    close.is .rightBrace = true →
    Declaration nearest (keyword :: name :: open' :: (ts ++ [close])) (.class name decls)
  | function {keyword : Token} {ts decl} : keyword.is .kwFun = true → Function nearest ts decl →
    Declaration nearest (keyword :: ts) (.function decl)
  | variable {ts s} : VarDeclaration ts s → Declaration nearest ts s
  | statement {ts s opens} : Statement nearest ts s opens → Declaration nearest ts s

/-- `declaration*`. -/
inductive Declarations (nearest : Bool) : List Token → List Stmt → Prop
  | nil : Declarations nearest [] []
  | cons {ts us s ss} : Declaration nearest ts s → Declarations nearest us ss →
    Declarations nearest (ts ++ us) (s :: ss)

/-- `statement → exprStmt | forStmt | ifStmt | printStmt | returnStmt | whileStmt | block`. The
last index says whether the statement ends in an `if` that has no `else` yet. -/
inductive Statement (nearest : Bool) : List Token → Stmt → Bool → Prop
  | expression {ts s} : ExpressionStatement ts s → Statement nearest ts s false
  /-- `"for" "(" ( varDecl | exprStmt | ";" ) expression? ";" expression? ")" statement`. -/
  | for {keyword open' semicolon close : Token} {as bs cs ds init test step body opens} :
    keyword.is .kwFor = true → open'.is .leftParen = true → ForInitializer as init →
    OptionalExpression bs test → semicolon.is .semicolon = true → OptionalExpression cs step →
    close.is .rightParen = true → Statement nearest ds body opens →
    Statement nearest (keyword :: open' :: (as ++ (bs ++ semicolon :: (cs ++ close :: ds))))
      (whileForm init test step body) opens
  /-- `"if" "(" expression ")" statement`. -/
  | if {keyword open' close : Token} {ts us test thenPart opens} : keyword.is .kwIf = true →
    open'.is .leftParen = true → Assignment ts test → close.is .rightParen = true →
    Statement nearest us thenPart opens →
    Statement nearest (keyword :: open' :: (ts ++ close :: us)) (.cond test thenPart none) true
  /-- `"if" "(" expression ")" statement "else" statement`. -/
  | ifElse {keyword open' close else' : Token} {ts us vs test thenPart elsePart opens opens'} :
    keyword.is .kwIf = true → open'.is .leftParen = true → Assignment ts test →
    close.is .rightParen = true → Statement nearest us thenPart opens →
    (nearest = true → opens = false) → else'.is .kwElse = true →
    Statement nearest vs elsePart opens' →
    Statement nearest (keyword :: open' :: (ts ++ close :: (us ++ else' :: vs)))
      (.cond test thenPart (some elsePart)) opens'
  /-- `"print" expression ";"`. -/
  | print {keyword semicolon : Token} {ts e} : keyword.is .kwPrint = true → Assignment ts e →
    semicolon.is .semicolon = true →
    Statement nearest (keyword :: (ts ++ [semicolon])) (.print e) false
  /-- `"return" expression? ";"`. -/
  | return {keyword semicolon : Token} {ts e} : keyword.is .kwReturn = true →
    OptionalExpression ts e → semicolon.is .semicolon = true →
    Statement nearest (keyword :: (ts ++ [semicolon])) (.ret keyword e) false
  /-- `"while" "(" expression ")" statement`. -/
  | while {keyword open' close : Token} {ts us test body opens} : keyword.is .kwWhile = true →
    open'.is .leftParen = true → Assignment ts test → close.is .rightParen = true →
    Statement nearest us body opens →
    Statement nearest (keyword :: open' :: (ts ++ close :: us)) (.while test body) opens
  | block {ts ss} : Block nearest ts ss → Statement nearest ts (.block ss) false

/-- `block → "{" declaration* "}"`. -/
inductive Block (nearest : Bool) : List Token → List Stmt → Prop
  | intro {open' close : Token} {ts ss} : open'.is .leftBrace = true →
    Declarations nearest ts ss → close.is .rightBrace = true →
    Block nearest (open' :: (ts ++ [close])) ss

/-- `function → IDENT "(" parameters? ")" block`. -/
inductive Function (nearest : Bool) : List Token → FunctionDecl → Prop
  | intro {name open' close : Token} {ts us params body} : name.isIdentifier = true →
    open'.is .leftParen = true → Parameters ts params → close.is .rightParen = true →
    Block nearest us body →
    Function nearest (name :: open' :: (ts ++ close :: us)) (.mk name params body)

/-- `function*`. -/
inductive Methods (nearest : Bool) : List Token → List FunctionDecl → Prop
  | nil : Methods nearest [] []
  | cons {ts us decl decls} : Function nearest ts decl → Methods nearest us decls →
    Methods nearest (ts ++ us) (decl :: decls)

end

/-- `program → declaration* EOF`, without the token that ends the program. -/
abbrev Program (nearest : Bool) : List Token → List Stmt → Prop := Declarations nearest

end Ebnf

end Lox
