/-
Quoted text, in the forms that are written: a JSON string, the form in which
names stand inside the description of a value, and that of file names.
-/
import Lox.Text.Visible

namespace Lox.Quoted

/-- The hexadecimal digits of a number, in small letters. -/
def hex (n : Nat) : String := String.ofList (Nat.toDigits 16 n)

/-- A character inside a JSON string: the short escapes, four digits for any other control
character of ASCII, and all else as it is. -/
def jsonChar (c : Char) : String :=
  match c with
  | '"' => "\\\""
  | '\\' => "\\\\"
  | '\n' => "\\n"
  | '\r' => "\\r"
  | '\t' => "\\t"
  | '\x08' => "\\b"
  | '\x0c' => "\\f"
  | c => if c.toNat < 0x20 then "\\u00" ++ (if c.toNat < 0x10 then "0" else "") ++ hex c.toNat
         else c.toString

/-- A JSON string. -/
def json (s : String) : String := "\"" ++ String.join (s.toList.map jsonChar) ++ "\""

/-- A character inside a described name: one that is not visible is escaped by its code point. -/
def nameChar (c : Char) : String :=
  match c with
  | '"' => "\\\""
  | '\\' => "\\\\"
  | '\n' => "\\n"
  | '\r' => "\\r"
  | '\t' => "\\t"
  | '\x00' => "\\0"
  | c => if isVisible c then c.toString else "\\u\x7b" ++ hex c.toNat ++ "\x7d"

/-- A name as it stands in a description. -/
def name (s : String) : String := "\"" ++ String.join (s.toList.map nameChar) ++ "\""

/-- A character inside the name of a file: in these a single quote is escaped, too. -/
def fileChar (c : Char) : String := if c = '\x27' then "\\'" else nameChar c

/-- The name of a file. -/
def file (s : String) : String := "\"" ++ String.join (s.toList.map fileChar) ++ "\""

end Lox.Quoted
