/-
Listings of tokens: one line for each token, or a JSON list in compact or in
indented form.
-/
import Lox.Token.Basic
import Lox.Decimal.Style
import Lox.Text.Quoted

namespace Lox

/-- The value of a number token: one place after the point for a whole number below 2^63 in
size, without a sign on zero, and the fewest digits for any other. -/
def Token.numberText (x : Float) : String :=
  match Decimal.parts x with
  | .finite negative m q =>
    match Decimal.whole? m q with
    | some n =>
      if n < 1 <<< 63 then
        Decimal.signed (negative && n != 0) (String.ofList (Decimal.digitsOf n) ++ ".0")
      else Decimal.plain.text x
    | none => Decimal.plain.text x
  | _ => Decimal.plain.text x

/-- A number in JSON, which has none for infinities and for what is no number. -/
def Decimal.jsonText (x : Float) : String :=
  match Decimal.parts x with
  | .finite .. => Decimal.json.text x
  | _ => "null"

/-- The kind of a token in JSON: its name, or an object that holds the value under the name. -/
def TokenKind.json (before after colon : String) (kind : TokenKind) : String :=
  let object (value : String) : String :=
    "\x7b" ++ before ++ Quoted.json kind.name ++ colon ++ value ++ after ++ "\x7d"
  match kind with
  | .string text => object (Quoted.json text)
  | .number x => object (Decimal.jsonText x)
  | kind => Quoted.json kind.name

namespace Token

/-- The value of a literal as a listing shows it. -/
def valueText (t : Token) : String :=
  match t.kind with
  | .string text => text
  | .number x => numberText x
  | _ => "null"

/-- The line of a token in a listing: the name of its kind, its text, its value. -/
def text (t : Token) : String := t.kind.name ++ " " ++ t.lexeme ++ " " ++ t.valueText

/-- A token as a compact JSON object. -/
def json (t : Token) : String :=
  "\x7b\"token_type\":" ++ t.kind.json "" "" ":" ++ ",\"lexeme\":" ++
    Quoted.json t.lexeme ++ ",\"line\":" ++ toString t.line ++ "\x7d"

/-- A list of tokens as compact JSON. -/
def jsonList (ts : List Token) : String := "[" ++ ",".intercalate (ts.map json) ++ "]"

/-- A token as an indented JSON object, an element of a list. -/
def jsonIndented (t : Token) : String :=
  "  \x7b\n    \"token_type\": " ++ t.kind.json "\n      " "\n    " ": " ++
    ",\n    \"lexeme\": " ++ Quoted.json t.lexeme ++
    ",\n    \"line\": " ++ toString t.line ++ "\n  \x7d"

/-- A list of tokens as JSON with two spaces of indentation at each level. -/
def jsonListIndented (ts : List Token) : String :=
  if ts.isEmpty then "[]" else "[\n" ++ ",\n".intercalate (ts.map jsonIndented) ++ "\n]"

end Token

end Lox
