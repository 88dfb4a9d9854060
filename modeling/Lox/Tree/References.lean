/-
The references of a tree: its nodes that read or write a binding, in the order
in which they stand in the tree, a node before the nodes inside it.
-/
import Lox.Tree.Basic

namespace Lox

/-- What a reference does with its binding. -/
inductive ReferenceSort
  | read
  | write
  | receiver
deriving DecidableEq, Repr

/-- A node that refers to a binding. -/
structure Reference where
  sort : ReferenceSort
  id : NodeId
  name : Token

mutual

/-- The references of an expression. -/
def Expr.references : Expr → List Reference
  | .literal _ => []
  | .grouping inner => inner.references
  | .unary _ operand => operand.references
  | .binary left _ right => left.references ++ right.references
  | .logical left _ right => left.references ++ right.references
  | .variable id name => [⟨.read, id, name⟩]
  | .assign id name value => ⟨.write, id, name⟩ :: value.references
  | .call callee _ args => callee.references ++ Expr.allReferences args
  | .get object _ => object.references
  | .set object _ value => object.references ++ value.references
  | .this id keyword => [⟨.receiver, id, keyword⟩]

/-- The references of a list of expressions. -/
def Expr.allReferences : List Expr → List Reference
  | [] => []
  | e :: rest => e.references ++ Expr.allReferences rest

end

mutual

/-- The references of a statement. -/
def Stmt.references : Stmt → List Reference
  | .expression e => e.references
  | .print e => e.references
  | .var _ none => []
  | .var _ (some e) => e.references
  | .block body => Stmt.allReferences body
  | .cond test thenPart none => test.references ++ thenPart.references
  | .cond test thenPart (some elsePart) =>
    test.references ++ thenPart.references ++ elsePart.references
  | .while test body => test.references ++ body.references
  | .function decl => decl.references
  | .ret _ none => []
  | .ret _ (some e) => e.references
  | .class _ methods => FunctionDecl.allReferences methods

/-- The references of a list of statements. -/
def Stmt.allReferences : List Stmt → List Reference
  | [] => []
  | s :: rest => s.references ++ Stmt.allReferences rest

/-- The references of the body of a function. -/
def FunctionDecl.references : FunctionDecl → List Reference
  | .mk _ _ body => Stmt.allReferences body

/-- The references of a list of methods. -/
def FunctionDecl.allReferences : List FunctionDecl → List Reference
  | [] => []
  | d :: rest => d.references ++ FunctionDecl.allReferences rest

end

end Lox
