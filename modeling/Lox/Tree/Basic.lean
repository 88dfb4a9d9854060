/-
Syntax trees. A node that refers to a name by scope (a variable, an
assignment, the receiver) has a number of its own, under which the distance of
its binding can be kept beside the tree.
-/
import Lox.Token.Basic

namespace Lox

/-- The number of a node that refers to a binding. -/
abbrev NodeId := Nat

/-- A constant in a program. -/
inductive Literal
  | number (value : Float)
  | string (text : String)
  | bool (value : Bool)
  | nil

/-- Expressions. A token stands in a node where an error at that node has to be reported. -/
inductive Expr
  | literal (value : Literal)
  | grouping (inner : Expr)
  | unary (op : Token) (operand : Expr)
  | binary (left : Expr) (op : Token) (right : Expr)
  /-- `and` and `or`, which leave out their right side when the left one decides. -/
  | logical (left : Expr) (op : Token) (right : Expr)
  | variable (id : NodeId) (name : Token)
  | assign (id : NodeId) (name : Token) (value : Expr)
  /-- A call, with its closing parenthesis. -/
  | call (callee : Expr) (paren : Token) (args : List Expr)
  | get (object : Expr) (name : Token)
  | set (object : Expr) (name : Token) (value : Expr)
  /-- The receiver of the method around it. -/
  | this (id : NodeId) (keyword : Token)

instance : Inhabited Expr := ⟨.literal .nil⟩

mutual

/-- Statements and declarations. -/
inductive Stmt
  | expression (e : Expr)
  | print (e : Expr)
  | var (name : Token) (init : Option Expr)
  | block (body : List Stmt)
  | cond (test : Expr) (thenPart : Stmt) (elsePart : Option Stmt)
  | while (test : Expr) (body : Stmt)
  | function (decl : FunctionDecl)
  | ret (keyword : Token) (value : Option Expr)
  | class (name : Token) (methods : List FunctionDecl)

/-- The declaration of a function or a method. -/
inductive FunctionDecl
  | mk (name : Token) (params : List Token) (body : List Stmt)

end

instance : Inhabited Stmt := ⟨.block []⟩

/-- The name under which a method has its receiver. -/
def receiverName : String := "this"

namespace FunctionDecl

def name : FunctionDecl → Token
  | mk name _ _ => name

def params : FunctionDecl → List Token
  | mk _ params _ => params

def body : FunctionDecl → List Stmt
  | mk _ _ body => body

/-- How many arguments a call has to bring. -/
def arity (decl : FunctionDecl) : Nat := decl.params.length

/-- The name of the method that sets up a new instance. -/
def initName : String := "init"

/-- Whether a method of this declaration sets up new instances. -/
def isInit (decl : FunctionDecl) : Bool := decl.name.lexeme == initName

end FunctionDecl

end Lox
