/-
The texts of values: what `print` shows, the names of the types, and the
description of functions, classes and instances.
-/
import Lox.Value.Basic
import Lox.Decimal.Style
import Lox.Text.Quoted

namespace Lox

/-- A callable value as it is shown. -/
def Callable.text : Callable → String
  | .native _ => "<native fn>"
  | .closure f => "<fn " ++ f.decl.name.lexeme ++ ">"
  | .class c => c.name

/-- A value as `print` shows it: whole numbers in full, strings without quotes. -/
def Value.text : Value → String
  | .nil => "nil"
  | .bool true => "true"
  | .bool false => "false"
  | .number x => Decimal.inFull "" x
  | .string text => text
  | .callable f => f.text
  | .object o => o.cls.name ++ " instance"

/-- The type of a value. -/
def Value.typeName : Value → String
  | .nil => "nil"
  | .bool _ => "boolean"
  | .number _ => "number"
  | .string _ => "string"
  | .callable _ => "callable"
  | .object _ => "instance"

/-- Fields of a description, in braces behind its title. -/
def describe (title : String) (fields : List (String × String)) : String :=
  title ++ " \x7b " ++ ", ".intercalate (fields.map fun f => f.1 ++ ": " ++ f.2) ++ " \x7d"

/-- Names in the order of their bytes, which is that of their characters. -/
def describeNames (names : List String) : String :=
  "[" ++ ", ".intercalate ((names.mergeSort fun a b => a ≤ b).map Quoted.name) ++ "]"

/-- The description of a callable value. -/
def Callable.describe : Callable → String
  | .native f =>
    Lox.describe "NativeFunction" [("name", Quoted.name f.name), ("arity", toString f.arity)]
  | .closure f =>
    Lox.describe "LoxFunction" [("name", Quoted.name f.decl.name.lexeme),
      ("arity", toString f.decl.arity), ("is_initializer", if f.isInit then "true" else "false")]
  | .class c =>
    Lox.describe "LoxClass" [("name", Quoted.name c.name),
      ("methods", describeNames c.methods.keys)]

/-- The description of an instance with its fields. -/
def Instance.describe (o : Instance) (fields : Bindings Value) : String :=
  Lox.describe "LoxInstance" [("class", Quoted.name o.cls.name),
    ("fields", describeNames fields.keys)]

end Lox
