/-
UTF-8 text. A byte string falls into pieces: characters, and between them the
longest runs of bytes that begin some character and stop fitting before it is
complete. The strict reader refuses the first such run and says where it is;
the lenient reader shows one replacement character for each.
-/

namespace Lox.Utf8

/-- A piece of a byte string. -/
inductive Piece
  /-- A well-formed character. -/
  | char (c : Char)
  /-- `size` bytes that no following byte can make a character of. -/
  | invalid (size : Nat)
  /-- The input ends inside a character. -/
  | cutOff
deriving DecidableEq, Repr

/-- What a first byte announces: how many tail bytes follow, between which bounds the first of
them lies, and the leading bits of the code point. -/
structure Lead where
  tails : Nat
  low : UInt8
  high : UInt8
  bits : Nat

/-- The bounds leave out overlong forms, surrogates and code points above 10FFFF. -/
def lead? (b : UInt8) : Option Lead :=
  if b < 0x80 then some ⟨0, 0x80, 0xBF, b.toNat⟩
  else if b < 0xC2 then none
  else if b < 0xE0 then some ⟨1, 0x80, 0xBF, b.toNat - 0xC0⟩
  else if b < 0xF0 then
    some ⟨2, if b = 0xE0 then 0xA0 else 0x80, if b = 0xED then 0x9F else 0xBF, b.toNat - 0xE0⟩
  else if b < 0xF5 then
    some ⟨3, if b = 0xF0 then 0x90 else 0x80, if b = 0xF4 then 0x8F else 0xBF, b.toNat - 0xF0⟩
  else none

/-- Reads the tail bytes that are owed, the first of them between `low` and `high`, after `seen`
bytes of the character whose bits so far are `code`. -/
def tails : Nat → UInt8 → UInt8 → Nat → Nat → List UInt8 → Piece × List UInt8
  | 0, _, _, code, _, rest => (.char (Char.ofNat code), rest)
  | _ + 1, _, _, _, _, [] => (.cutOff, [])
  | owed + 1, low, high, code, seen, b :: rest =>
    if low ≤ b ∧ b ≤ high then
      tails owed 0x80 0xBF (code * 64 + (b.toNat - 0x80)) (seen + 1) rest
    else (.invalid seen, b :: rest)

/-- The piece that starts with the byte `b`, and the bytes after that piece. -/
def next (b : UInt8) (rest : List UInt8) : Piece × List UInt8 :=
  match lead? b with
  | none => (.invalid 1, rest)
  | some l => tails l.tails l.low l.high l.bits 1 rest

theorem tails_length (owed : Nat) (low high : UInt8) (code seen : Nat) (bytes : List UInt8) :
    (tails owed low high code seen bytes).2.length ≤ bytes.length := by
  induction bytes generalizing owed low high code seen with
  | nil => cases owed <;> simp [tails]
  | cons b rest ih =>
    cases owed with
    | zero => simp [tails]
    | succ owed =>
      rw [tails]
      split
      · exact Nat.le_succ_of_le (ih ..)
      · exact Nat.le_refl _

theorem next_length (b : UInt8) (rest : List UInt8) : (next b rest).2.length ≤ rest.length := by
  unfold next
  split
  · exact Nat.le_refl _
  · exact tails_length ..

/-- The pieces of a byte string, after those in `found`, latest first. -/
def piecesAfter (found : List Piece) : List UInt8 → List Piece
  | [] => found.reverse
  | b :: rest => piecesAfter ((next b rest).1 :: found) (next b rest).2
termination_by bytes => bytes.length
decreasing_by exact Nat.lt_succ_of_le (next_length b rest)

/-- The pieces of a byte string. -/
def pieces (bytes : List UInt8) : List Piece := piecesAfter [] bytes

theorem piecesAfter_eq (found : List Piece) (bytes : List UInt8) :
    piecesAfter found bytes = found.reverse ++ pieces bytes := by
  have key : ∀ n (found : List Piece) (bytes : List UInt8), bytes.length ≤ n →
      piecesAfter found bytes = found.reverse ++ piecesAfter [] bytes := by
    intro n
    induction n with
    | zero =>
      intro found bytes h
      rw [List.length_eq_zero_iff.1 (Nat.le_zero.1 h)]
      simp [piecesAfter]
    | succ n ih =>
      intro found bytes h
      cases bytes with
      | nil => simp [piecesAfter]
      | cons b rest =>
        have hr : (next b rest).2.length ≤ n :=
          Nat.le_trans (next_length b rest) (Nat.le_of_succ_le_succ h)
        rw [piecesAfter, piecesAfter, ih _ _ hr, ih [_] _ hr]
        simp
  exact key bytes.length found bytes (Nat.le_refl _)

@[simp] theorem pieces_nil : pieces [] = [] := by simp [pieces, piecesAfter]

theorem pieces_cons (b : UInt8) (rest : List UInt8) :
    pieces (b :: rest) = (next b rest).1 :: pieces (next b rest).2 := by
  rw [pieces, piecesAfter, piecesAfter_eq]; rfl

/-- The character shown for a piece: itself, or the replacement character. -/
def Piece.shown : Piece → Char
  | .char c => c
  | _ => '\uFFFD'

/-- The text of any byte string, one replacement character for each ill-formed piece. -/
def lenient (bytes : List UInt8) : String := String.ofList ((pieces bytes).map Piece.shown)

/-- Why a byte string is not UTF-8. -/
inductive Fault
  /-- `size` bytes at `index` begin no character. -/
  | invalid (size index : Nat)
  /-- The input ends inside the character at `index`. -/
  | incomplete (index : Nat)
deriving DecidableEq, Repr

def Fault.message : Fault → String
  | .invalid size index => s!"invalid utf-8 sequence of {size} bytes from index {index}"
  | .incomplete index => s!"incomplete utf-8 byte sequence from index {index}"

/-- The characters of the pieces from byte `index` on, after those in `found`, latest first. -/
def strictAfter (found : List Char) (index : Nat) : List Piece → Except Fault (List Char)
  | [] => .ok found.reverse
  | .char c :: rest => strictAfter (c :: found) (index + c.utf8Size) rest
  | .invalid size :: _ => .error (.invalid size index)
  | .cutOff :: _ => .error (.incomplete index)

/-- The text of a byte string, refused at its first ill-formed piece. -/
def strict (bytes : List UInt8) : Except Fault String :=
  (strictAfter [] 0 (pieces bytes)).map String.ofList

/-- The bytes of a text. -/
def encode (text : String) : List UInt8 := text.toUTF8.toList

end Lox.Utf8
