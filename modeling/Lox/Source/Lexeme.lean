/-
Lexemes: the front of a source text, as bytes, is white space, a comment, a
token or a fault. `cut` takes the longest one off; it takes at least one byte
and loses none (`taken_append_rest`).
-/
import Lox.Diagnostic
import Lox.Decimal.Read

namespace Lox.Source

/-- A digit. -/
def isDigit (b : UInt8) : Bool := 0x30 ≤ b && b ≤ 0x39

/-- A letter or an underscore. -/
def isLetter (b : UInt8) : Bool :=
  (0x41 ≤ b && b ≤ 0x5A) || (0x61 ≤ b && b ≤ 0x7A) || b == 0x5F

/-- A byte inside a name. -/
def isWord (b : UInt8) : Bool := isLetter b || isDigit b

/-- A tail byte of UTF-8. -/
def isTail (b : UInt8) : Bool := b &&& 0xC0 == 0x80

/-- The line feed, which ends lines and comments. -/
def lineFeed : UInt8 := 0x0A

/-- The quote, which opens and closes strings. -/
def quote : UInt8 := 0x22

/-- What the front of a source is. -/
inductive Piece
  /-- White space or a comment. -/
  | blank
  | token (kind : TokenKind)
  | fault (f : LexFault)

/-- The first piece of a source, the bytes it takes and those it leaves. -/
structure Cut where
  piece : Piece
  taken : List UInt8
  rest : List UInt8

/-- White space between tokens. -/
def isSpace (b : UInt8) : Bool := b == 0x20 || b == 0x0D || b == 0x09 || b == lineFeed

/-- The marks of one character that no longer mark starts with. -/
def mark? (b : UInt8) : Option Symbol :=
  match Char.ofNat b.toNat with
  | '(' => some .leftParen
  | ')' => some .rightParen
  | '\x7b' => some .leftBrace
  | '\x7d' => some .rightBrace
  | ',' => some .comma
  | '.' => some .dot
  | '-' => some .minus
  | '+' => some .plus
  | ';' => some .semicolon
  | '*' => some .star
  | '/' => some .slash
  | _ => none

/-- The marks that an equals sign may follow, without it and with it. -/
def equalMarks? (b : UInt8) : Option (Symbol × Symbol) :=
  match Char.ofNat b.toNat with
  | '!' => some (.bang, .bangEqual)
  | '=' => some (.equal, .equalEqual)
  | '<' => some (.less, .lessEqual)
  | '>' => some (.greater, .greaterEqual)
  | _ => none

/-- A comment runs to the end of its line, which it leaves. -/
def cutComment (rest : List UInt8) : Cut :=
  ⟨.blank, 0x2F :: rest.takeWhile (· != lineFeed), rest.dropWhile (· != lineFeed)⟩

/-- A string runs to the next quote, over line ends too. -/
def cutString (rest : List UInt8) : Cut :=
  let body := rest.takeWhile (· != quote)
  match rest.dropWhile (· != quote) with
  | [] => ⟨.fault .unterminatedString, quote :: body, []⟩
  | close :: after => ⟨.token (.string (Utf8.lenient body)), quote :: body ++ [close], after⟩

/-- A number is digits, and a fraction if the point has a digit behind it. -/
def cutNumber (b : UInt8) (rest : List UInt8) : Cut :=
  let whole := b :: rest.takeWhile isDigit
  let number (taken after : List UInt8) : Cut :=
    ⟨.token (.number ((Decimal.read? (Utf8.lenient taken)).getD 0)), taken, after⟩
  match rest.dropWhile isDigit with
  | 0x2E :: d :: after =>
    if isDigit d then
      number (whole ++ 0x2E :: d :: after.takeWhile isDigit) (after.dropWhile isDigit)
    else number whole (0x2E :: d :: after)
  | after => number whole after

/-- A word is a keyword if it is spelled like one as a whole, and otherwise a name. -/
def cutWord (b : UInt8) (rest : List UInt8) : Cut :=
  let word := b :: rest.takeWhile isWord
  let kind := match Symbol.keyword? (Utf8.lenient word) with
    | some k => .symbol k
    | none => .identifier
  ⟨.token kind, word, rest.dropWhile isWord⟩

/-- A byte that starts nothing, with the tail bytes behind it. -/
def cutUnexpected (b : UInt8) (rest : List UInt8) : Cut :=
  let taken := b :: rest.takeWhile isTail
  ⟨.fault (.unexpected (Utf8.lenient taken)), taken, rest.dropWhile isTail⟩

/-- The first piece of the source that starts with the byte `b`. -/
def cut (b : UInt8) (rest : List UInt8) : Cut :=
  if isSpace b then ⟨.blank, [b], rest⟩
  else if b = 0x2F ∧ rest.head? = some 0x2F then cutComment rest
  else if b = quote then cutString rest
  else if isDigit b then cutNumber b rest
  else if isLetter b then cutWord b rest
  else match equalMarks? b, rest with
    | some (_, long), 0x3D :: after => ⟨.token (.symbol long), [b, 0x3D], after⟩
    | some (short, _), rest => ⟨.token (.symbol short), [b], rest⟩
    | none, rest =>
      match mark? b with
      | some s => ⟨.token (.symbol s), [b], rest⟩
      | none => cutUnexpected b rest

theorem cutString_append (rest : List UInt8) :
    (cutString rest).taken ++ (cutString rest).rest = quote :: rest := by
  have h := List.takeWhile_append_dropWhile (p := (· != quote)) (l := rest)
  unfold cutString
  cases hd : rest.dropWhile (· != quote) with
  | nil => rw [hd] at h; simpa using h
  | cons close after => rw [hd] at h; simpa using h

theorem cutNumber_append (b : UInt8) (rest : List UInt8) :
    (cutNumber b rest).taken ++ (cutNumber b rest).rest = b :: rest := by
  have h := List.takeWhile_append_dropWhile (p := isDigit) (l := rest)
  unfold cutNumber
  split
  next d after hd =>
    rw [hd] at h
    split
    · simpa using h
    · simpa using h
  next => simp

/-- No byte is lost between what a cut takes and what it leaves. -/
theorem taken_append_rest (b : UInt8) (rest : List UInt8) :
    (cut b rest).taken ++ (cut b rest).rest = b :: rest := by
  unfold cut
  split
  · rfl
  split
  next h => simp [cutComment, h.1]
  split
  next h => rw [h]; exact cutString_append rest
  split
  · exact cutNumber_append b rest
  split
  · simp [cutWord]
  split
  · rfl
  · rfl
  split
  · rfl
  · simp [cutUnexpected]

theorem taken_ne_nil (b : UInt8) (rest : List UInt8) : (cut b rest).taken ≠ [] := by
  unfold cut
  split
  · simp
  split
  · simp [cutComment]
  split
  · unfold cutString; dsimp only; split <;> simp
  split
  · unfold cutNumber; dsimp only; split
    · split <;> simp
    · simp
  split
  · simp [cutWord]
  split
  · simp
  · simp
  split
  · simp
  · simp [cutUnexpected]

/-- Every cut shortens the source. -/
theorem rest_length_lt (b : UInt8) (rest : List UInt8) :
    (cut b rest).rest.length < (b :: rest).length := by
  have h := congrArg List.length (taken_append_rest b rest)
  have hn := List.length_pos_iff.2 (taken_ne_nil b rest)
  rw [List.length_append] at h
  omega

end Lox.Source
