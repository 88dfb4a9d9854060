/-
Diagnostics: everything that can be wrong with a program, by its cause, and
the one place where causes get their words.
-/
import Lox.Token.Basic
import Lox.Text.Utf8

namespace Lox

/-- What is wrong with a stretch of source. -/
inductive LexFault
  /-- A character that starts no token. -/
  | unexpected (text : String)
  | unterminatedString
deriving DecidableEq, Repr

def LexFault.message : LexFault → String
  | .unexpected text => "Unexpected character: " ++ text
  | .unterminatedString => "Unterminated string."

/-- The two sorts of function declarations. -/
inductive FunctionSort
  | function
  | method
deriving DecidableEq, Repr

def FunctionSort.word : FunctionSort → String
  | .function => "function"
  | .method => "method"

/-- The places at which a program needs a certain symbol. -/
inductive Place
  | beforeClassBody | afterClassBody
  | afterFunctionName (sort : FunctionSort) | afterParameters
  | beforeFunctionBody (sort : FunctionSort)
  | afterDeclaration | afterValue | afterExpression | afterReturnValue
  | afterFor | afterLoopCondition | afterForClauses
  | afterIf | afterWhile | afterCondition | afterBlock
  | afterArguments | afterGroup
deriving DecidableEq, Repr

def Place.words : Place → String
  | .beforeClassBody => "before class body"
  | .afterClassBody => "after class body"
  | .afterFunctionName sort => "after " ++ sort.word ++ " name"
  | .afterParameters => "after parameters"
  | .beforeFunctionBody sort => "before " ++ sort.word ++ " body"
  | .afterDeclaration => "after variable declaration"
  | .afterValue => "after value"
  | .afterExpression => "after expression"
  | .afterReturnValue => "after return value"
  | .afterFor => "after 'for'"
  | .afterLoopCondition => "after loop condition"
  | .afterForClauses => "after for clauses"
  | .afterIf => "after 'if'"
  | .afterWhile => "after 'while'"
  | .afterCondition => "after condition"
  | .afterBlock => "after block"
  | .afterArguments => "after arguments"
  | .afterGroup => "after expression"

/-- The things that a program must name. -/
inductive Named
  | classDecl
  | functionDecl (sort : FunctionSort)
  | parameter
  | variableDecl
  | property
deriving DecidableEq, Repr

def Named.words : Named → String
  | .classDecl => "class name"
  | .functionDecl sort => sort.word ++ " name"
  | .parameter => "parameter name"
  | .variableDecl => "variable name"
  | .property => "property name after '.'"

/-- Why tokens do not form a program. -/
inductive ParseFault
  | expectedExpression
  | expectedName (of : Named)
  | expectedSymbol (s : Symbol) (place : Place)
  | invalidTarget
  | tooManyParameters
  | tooManyArguments
deriving DecidableEq, Repr

/-- The largest number of parameters of a function and of arguments of a call. -/
def maxArity : Nat := 255

def ParseFault.message : ParseFault → String
  | .expectedExpression => "Expected expression"
  | .expectedName of => "Expected " ++ of.words
  | .expectedSymbol s place => "Expected '" ++ s.text ++ "' " ++ place.words
  | .invalidTarget => "Invalid assignment target."
  | .tooManyParameters => "Can't have more than " ++ toString maxArity ++ " parameters."
  | .tooManyArguments => "Can't have more than " ++ toString maxArity ++ " arguments."

/-- What a well-formed program may still get wrong before it runs. -/
inductive ResolveFault
  | alreadyDeclared
  | readInInitializer
  | returnAtTopLevel
  | valueFromInitializer
  | thisOutsideClass
deriving DecidableEq, Repr

def ResolveFault.message : ResolveFault → String
  | .alreadyDeclared => "Already a variable with this name in this scope."
  | .readInInitializer => "Can't read local variable in its own initializer."
  | .returnAtTopLevel => "Can't return from top-level code."
  | .valueFromInitializer => "Can't return a value from an initializer."
  | .thisOutsideClass => "Can't use 'this' outside of a class."

/-- Why a run stops. -/
inductive RuntimeFault
  | undefinedVariable (name : String)
  | undefinedProperty (name : String)
  | propertyOfNonInstance
  | fieldOfNonInstance
  | notCallable
  | wrongArity (expected got : Nat)
  | stackOverflow
  | operandNotNumber
  | operandsNotNumbers
  | operandsNotAddable
  | unknownUnary
  | unknownBinary
deriving DecidableEq, Repr

def RuntimeFault.message : RuntimeFault → String
  | .undefinedVariable name => "Undefined variable '" ++ name ++ "'."
  | .undefinedProperty name => "Undefined property '" ++ name ++ "'."
  | .propertyOfNonInstance => "Only instances have properties."
  | .fieldOfNonInstance => "Only instances have fields."
  | .notCallable => "Can only call functions and classes."
  | .wrongArity expected got => s!"Expected {expected} arguments but got {got}."
  | .stackOverflow => "Stack overflow."
  | .operandNotNumber => "Operand must be a number."
  | .operandsNotNumbers => "Operands must be numbers."
  | .operandsNotAddable => "Operands must be two numbers or two strings."
  | .unknownUnary => "Invalid unary operator."
  | .unknownBinary => "Invalid binary operator."

/-- A fault of the grammar and the token at which it was found. -/
structure ParseError where
  token : Token
  fault : ParseFault

/-- A static fault and the token at which it was found. -/
structure ResolveError where
  token : Token
  fault : ResolveFault

/-- The fault that stopped a run and the token that was being carried out. -/
structure RuntimeError where
  token : Token
  fault : RuntimeFault

/-- Anything that is reported about a program. -/
inductive Diagnostic
  | lex (line : Nat) (fault : LexFault)
  | parse (error : ParseError)
  | resolve (error : ResolveError)
  | runtime (error : RuntimeError)
  | utf8 (fault : Utf8.Fault)

/-- Where a static error is, in words. -/
def Token.location (t : Token) : String :=
  if t.isEof then " at end" else " at '" ++ t.lexeme ++ "'"

namespace Diagnostic

/-- What is wrong, without the place. -/
def message : Diagnostic → String
  | lex _ fault => fault.message
  | parse e => e.fault.message
  | resolve e => e.fault.message
  | runtime e => e.fault.message
  | utf8 fault => fault.message

/-- The line, if the diagnostic has one. -/
def line? : Diagnostic → Option Nat
  | lex line _ => some line
  | parse e => some e.token.line
  | resolve e => some e.token.line
  | runtime e => some e.token.line
  | utf8 _ => none

/-- Whether the program had begun to run. -/
def isRuntime : Diagnostic → Bool
  | runtime _ => true
  | _ => false

/-- The line of a static error, the token it is at, and what is wrong. -/
def staticText (line : Nat) (location message : String) : String :=
  "[line " ++ toString line ++ "] Error" ++ location ++ ": " ++ message

/-- The diagnostic as it is shown to the user. -/
def text : Diagnostic → String
  | lex line fault => staticText line "" fault.message
  | parse e => staticText e.token.line e.token.location e.fault.message
  | resolve e => staticText e.token.line e.token.location e.fault.message
  | runtime e => e.fault.message ++ "\n[line " ++ toString e.token.line ++ "]"
  | utf8 fault => fault.message

end Diagnostic

end Lox
