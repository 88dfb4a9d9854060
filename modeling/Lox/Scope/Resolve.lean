/-
Resolving names. A walk over a program finds, for each node that refers to a
name, how many scopes lie between the node and the scope that has the name, and
reports what a program may not do with names, `return` and the receiver. The
walk never stops early.
-/
import Lox.Scope.Basic

namespace Lox

mutual

/-- Resolves an expression. The value of an assignment comes before its target. -/
def Expr.resolve : Expr → Resolution → Resolution
  | .literal _, r => r
  | .grouping inner, r => inner.resolve r
  | .unary _ operand, r => operand.resolve r
  | .binary left _ right, r => right.resolve (left.resolve r)
  | .logical left _ right, r => right.resolve (left.resolve r)
  | .variable id name, r =>
    let r := if r.isPending name.lexeme then r.report name .readInInitializer else r
    r.record id name
  | .assign id name value, r => (value.resolve r).record id name
  | .call callee _ args, r => Expr.resolveAll args (callee.resolve r)
  | .get object _, r => object.resolve r
  | .set object _ value, r => object.resolve (value.resolve r)
  | .this id keyword, r =>
    if r.inClass then r.record id keyword else r.report keyword .thisOutsideClass

/-- Resolves expressions from left to right. -/
def Expr.resolveAll : List Expr → Resolution → Resolution
  | [], r => r
  | e :: rest, r => Expr.resolveAll rest (e.resolve r)

end

/-- Declares and defines parameters from left to right. -/
def Resolution.addParams (r : Resolution) (params : List Token) : Resolution :=
  params.foldl (fun r name => (r.declare name).define name) r

/-- Reports what is wrong with a `return` at a place, before its value is resolved. -/
def Resolution.checkReturn (r : Resolution) (keyword : Token) (hasValue : Bool) : Resolution :=
  let r := if r.function = .none then r.report keyword .returnAtTopLevel else r
  if hasValue && r.function = .initializer then r.report keyword .valueFromInitializer else r

/-- The scope of a class, which has the receiver. -/
def classScope : Scope := Bindings.empty.set receiverName .defined

mutual

/-- Resolves a statement. -/
def Stmt.resolve : Stmt → Resolution → Resolution
  | .expression e, r => e.resolve r
  | .print e, r => e.resolve r
  | .var name none, r => (r.declare name).define name
  | .var name (some e), r => (e.resolve (r.declare name)).define name
  | .block body, r => (Stmt.resolveAll body (r.push .empty)).pop
  | .cond test thenPart none, r => thenPart.resolve (test.resolve r)
  | .cond test thenPart (some elsePart), r => elsePart.resolve (thenPart.resolve (test.resolve r))
  | .while test body, r => body.resolve (test.resolve r)
  | .function decl, r => decl.resolve .function ((r.declare decl.name).define decl.name)
  | .ret keyword none, r => r.checkReturn keyword false
  | .ret keyword (some e), r => e.resolve (r.checkReturn keyword true)
  | .class name methods, r =>
    let inside := ({ r with inClass := true }.declare name).define name |>.push classScope
    { (FunctionDecl.resolveMethods methods inside).pop with inClass := r.inClass }

/-- Resolves statements in their order. -/
def Stmt.resolveAll : List Stmt → Resolution → Resolution
  | [], r => r
  | s :: rest, r => Stmt.resolveAll rest (s.resolve r)

/-- Resolves a function: its parameters and its body are in one scope. -/
def FunctionDecl.resolve : FunctionDecl → FunctionContext → Resolution → Resolution
  | .mk _ params body, context, r =>
    let inside := ({ r with function := context }.push .empty).addParams params
    { (Stmt.resolveAll body inside).pop with function := r.function }

/-- Resolves the methods of a class. -/
def FunctionDecl.resolveMethods : List FunctionDecl → Resolution → Resolution
  | [], r => r
  | d :: rest, r =>
    FunctionDecl.resolveMethods rest (d.resolve (if d.isInit then .initializer else .method) r)

end

/-- Resolves a program after earlier ones whose distances are given. -/
def resolve (program : List Stmt) (distances : Std.HashMap NodeId Nat) : Resolution :=
  Stmt.resolveAll program (.start distances)

end Lox
