/-
Tokens: fixed marks and keywords, names, and literals with their values. A
token keeps the text it was read from and its line.
-/
namespace Lox

/-- The tokens with one spelling: marks and keywords. -/
inductive Symbol
  | leftParen | rightParen | leftBrace | rightBrace
  | comma | dot | minus | plus | semicolon | slash | star
  | bang | bangEqual | equal | equalEqual | greater | greaterEqual | less | lessEqual
  | kwAnd | kwClass | kwElse | kwFalse | kwFun | kwFor | kwIf | kwNil | kwOr | kwPrint
  | kwReturn | kwSuper | kwThis | kwTrue | kwVar | kwWhile
deriving DecidableEq, Repr, Inhabited

namespace Symbol

/-- The marks. -/
def marks : List Symbol :=
  [leftParen, rightParen, leftBrace, rightBrace, comma, dot, minus, plus, semicolon, slash, star,
   bang, bangEqual, equal, equalEqual, greater, greaterEqual, less, lessEqual]

/-- The keywords. -/
def keywords : List Symbol :=
  [kwAnd, kwClass, kwElse, kwFalse, kwFun, kwFor, kwIf, kwNil, kwOr, kwPrint, kwReturn, kwSuper,
   kwThis, kwTrue, kwVar, kwWhile]

/-- How the symbol is spelled in a program. -/
def text : Symbol → String
  | leftParen => "(" | rightParen => ")" | leftBrace => "\x7b" | rightBrace => "\x7d"
  | comma => "," | dot => "." | minus => "-" | plus => "+" | semicolon => ";"
  | slash => "/" | star => "*"
  | bang => "!" | bangEqual => "!=" | equal => "=" | equalEqual => "=="
  | greater => ">" | greaterEqual => ">=" | less => "<" | lessEqual => "<="
  | kwAnd => "and" | kwClass => "class" | kwElse => "else" | kwFalse => "false" | kwFun => "fun"
  | kwFor => "for" | kwIf => "if" | kwNil => "nil" | kwOr => "or" | kwPrint => "print"
  | kwReturn => "return" | kwSuper => "super" | kwThis => "this" | kwTrue => "true"
  | kwVar => "var" | kwWhile => "while"

/-- The name of the symbol in token listings. -/
def name : Symbol → String
  | leftParen => "LEFT_PAREN" | rightParen => "RIGHT_PAREN"
  | leftBrace => "LEFT_BRACE" | rightBrace => "RIGHT_BRACE"
  | comma => "COMMA" | dot => "DOT" | minus => "MINUS" | plus => "PLUS"
  | semicolon => "SEMICOLON" | slash => "SLASH" | star => "STAR"
  | bang => "BANG" | bangEqual => "BANG_EQUAL" | equal => "EQUAL" | equalEqual => "EQUAL_EQUAL"
  | greater => "GREATER" | greaterEqual => "GREATER_EQUAL" | less => "LESS"
  | lessEqual => "LESS_EQUAL"
  | kwAnd => "AND" | kwClass => "CLASS" | kwElse => "ELSE" | kwFalse => "FALSE" | kwFun => "FUN"
  | kwFor => "FOR" | kwIf => "IF" | kwNil => "NIL" | kwOr => "OR" | kwPrint => "PRINT"
  | kwReturn => "RETURN" | kwSuper => "SUPER" | kwThis => "THIS" | kwTrue => "TRUE"
  | kwVar => "VAR" | kwWhile => "WHILE"

/-- The keyword with this spelling. -/
def keyword? (word : String) : Option Symbol := keywords.find? fun k => k.text == word

/-- The mark or keyword with this name. -/
def ofName? (name : String) : Option Symbol :=
  (marks ++ keywords).find? fun s => s.name == name

theorem keyword?_text {word : String} {k : Symbol} (h : keyword? word = some k) :
    k.text = word := by
  simpa using List.find?_some h

end Symbol

/-- The kinds of tokens, with the values of literals. -/
inductive TokenKind
  | symbol (s : Symbol)
  | identifier
  | string (text : String)
  | number (value : Float)
  /-- The end of the program. -/
  | eof
deriving Inhabited

/-- The name of the kind in token listings. -/
def TokenKind.name : TokenKind → String
  | .symbol s => s.name
  | .identifier => "IDENTIFIER"
  | .string _ => "STRING"
  | .number _ => "NUMBER"
  | .eof => "EOF"

/-- A token: its kind, the text it was read from, the line on which it ends. -/
structure Token where
  kind : TokenKind
  lexeme : String
  line : Nat
deriving Inhabited

namespace Token

/-- The token that ends a program. -/
def eof (line : Nat) : Token := ⟨.eof, "", line⟩

/-- A name that no program text spells out, such as the receiver of an initializer. -/
def identifier (name : String) (line : Nat) : Token := ⟨.identifier, name, line⟩

/-- Whether the token is this mark or keyword. -/
def is (t : Token) (s : Symbol) : Bool :=
  match t.kind with
  | .symbol s' => s == s'
  | _ => false

/-- Whether the token is a name. -/
def isIdentifier (t : Token) : Bool :=
  match t.kind with
  | .identifier => true
  | _ => false

/-- Whether the token is the end of the program. -/
def isEof (t : Token) : Bool :=
  match t.kind with
  | .eof => true
  | _ => false

theorem is_iff {t : Token} {s : Symbol} : t.is s = true ↔ t.kind = .symbol s := by
  unfold is
  split
  next s' h => rw [h, beq_iff_eq, TokenKind.symbol.injEq, eq_comm]
  next h => exact ⟨fun e => absurd e Bool.false_ne_true, fun e => absurd e (h s)⟩

end Token

end Lox
