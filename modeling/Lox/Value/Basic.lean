/-
Values. Functions and classes are values that never change; what can change,
the variables of a frame and the fields of an object, lies in the store, and a
value holds only the number under which it is found there. Functions and
objects are the same only if they are the same one: each carries its own number.
-/
import Lox.Bindings
import Lox.Tree.Basic

namespace Lox

/-- The number of a frame of variables. -/
abbrev FrameId := Nat

/-- The number of an object. -/
abbrev ObjectId := Nat

/-- The frames that are visible at a place: the current one, and those around it, innermost
first. -/
structure Env where
  frame : FrameId
  outer : List FrameId
deriving DecidableEq, Repr

/-- All frames of an environment, the current one first. -/
def Env.chain (env : Env) : List FrameId := env.frame :: env.outer

/-- The environment around the current frame. -/
def Env.enclosing? (env : Env) : Option Env :=
  match env.outer with
  | [] => none
  | frame :: outer => some ⟨frame, outer⟩

/-- A function with the environment in which it was declared. A method that sets up instances
yields the instance, whatever it returns. -/
structure Closure where
  stamp : Nat
  decl : FunctionDecl
  env : Env
  isInit : Bool

/-- A class: its name and its methods, not bound to an instance. -/
structure Class where
  stamp : Nat
  name : String
  methods : Bindings Closure

/-- What a native function does. -/
inductive NativeAction
  /-- Yields the time in seconds. -/
  | clock
deriving DecidableEq, Repr

/-- A function that the language itself provides. -/
structure Native where
  stamp : Nat
  name : String
  arity : Nat
  action : NativeAction
deriving DecidableEq, Repr

/-- Anything that can be called. -/
inductive Callable
  | native (f : Native)
  | closure (f : Closure)
  | class (c : Class)

/-- An instance of a class; its fields are in the store. -/
structure Instance where
  id : ObjectId
  cls : Class

/-- The values of the language. -/
inductive Value
  | nil
  | bool (b : Bool)
  | number (x : Float)
  | string (text : String)
  | callable (f : Callable)
  | object (o : Instance)

instance : Inhabited Value := ⟨.nil⟩

/-- The method of a class that sets up new instances. -/
def Class.init? (c : Class) : Option Closure := c.methods.get? FunctionDecl.initName

/-- How many arguments a call of the class has to bring. -/
def Class.arity (c : Class) : Nat :=
  match c.init? with
  | some f => f.decl.arity
  | none => 0

/-- How many arguments a call has to bring. -/
def Callable.arity : Callable → Nat
  | .native f => f.arity
  | .closure f => f.decl.arity
  | .class c => c.arity

namespace Value

/-- Only `nil` and `false` count as false. -/
def isTruthy : Value → Bool
  | nil => false
  | bool b => b
  | _ => true

/-- Whether two callable values are the same one. -/
def sameCallable : Callable → Callable → Bool
  | .native f, .native g => f.stamp == g.stamp
  | .closure f, .closure g => f.stamp == g.stamp
  | .class c, .class d => c.stamp == d.stamp
  | _, _ => false

/-- Equality of the language: values of one type with the same content, or the same one. A number
that is not a number differs from itself. -/
def equals : Value → Value → Bool
  | nil, nil => true
  | bool a, bool b => a == b
  | number x, number y => x == y
  | string s, string t => s == t
  | callable f, callable g => sameCallable f g
  | object o, object p => o.id == p.id
  | _, _ => false

end Value

/-- The value of a constant. -/
def Literal.value : Literal → Value
  | .number x => .number x
  | .string text => .string text
  | .bool b => .bool b
  | .nil => .nil

end Lox
