/-
Static scopes: the names that the blocks, functions and classes around a place
have declared so far. A name is first declared and becomes defined when its
declaration is complete.
-/
import Lox.Bindings
import Lox.Diagnostic
import Lox.Tree.Basic
import Std.Data.HashMap

namespace Lox

/-- How far the declaration of a name has come. -/
inductive Standing
  | declared
  | defined
deriving DecidableEq, Repr

/-- The names of one scope. -/
abbrev Scope := Bindings Standing

/-- The function around a place, as far as `return` is concerned. -/
inductive FunctionContext
  | none
  | function
  | method
  | initializer
deriving DecidableEq, Repr

/-- What is known at a place of a program while its names are being resolved. -/
structure Resolution where
  /-- The scopes around the place, innermost first, without the global one. -/
  scopes : List Scope
  function : FunctionContext
  /-- Whether the place is inside a class. -/
  inClass : Bool
  /-- The distances recorded so far, for each node that refers to a name in some scope. -/
  distances : Std.HashMap NodeId Nat
  errors : Array ResolveError
  /-- Whether there are any errors. -/
  failed : Bool

namespace Resolution

/-- The start of a program, with the distances recorded for earlier ones. -/
def start (distances : Std.HashMap NodeId Nat) : Resolution :=
  ⟨[], .none, false, distances, #[], false⟩

/-- Reports a fault. -/
def report (r : Resolution) (token : Token) (fault : ResolveFault) : Resolution :=
  { r with errors := r.errors.push ⟨token, fault⟩, failed := true }

/-- Opens a scope. -/
def push (r : Resolution) (scope : Scope) : Resolution := { r with scopes := scope :: r.scopes }

/-- Closes the innermost scope. -/
def pop (r : Resolution) : Resolution := { r with scopes := r.scopes.tail }

/-- Declares a name in the innermost scope, in which it must be new. Globals are not declared. -/
def declare (r : Resolution) (name : Token) : Resolution :=
  match r.scopes with
  | [] => r
  | scope :: outer =>
    if scope.contains name.lexeme then r.report name .alreadyDeclared
    else { r with scopes := scope.set name.lexeme .declared :: outer }

/-- Completes the declaration of a name. -/
def define (r : Resolution) (name : Token) : Resolution :=
  match r.scopes with
  | [] => r
  | scope :: outer => { r with scopes := scope.set name.lexeme .defined :: outer }

/-- How many scopes lie between a place and the one that has a name. -/
def distance? (scopes : List Scope) (name : String) : Option Nat :=
  scopes.findIdx? fun scope => scope.contains name

/-- Records the distance of a name for a node. A name that no scope has is global. -/
def record (r : Resolution) (id : NodeId) (name : Token) : Resolution :=
  match distance? r.scopes name.lexeme with
  | some d => { r with distances := r.distances.insert id d }
  | none => r

/-- Whether the innermost scope has a name whose declaration is not complete. -/
def isPending (r : Resolution) (name : String) : Bool :=
  match r.scopes with
  | [] => false
  | scope :: _ => scope.get? name == some .declared

end Resolution

end Lox
