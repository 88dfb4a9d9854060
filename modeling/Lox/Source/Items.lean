/-
The items of a source: its tokens and its lexical faults, one after the other,
each with the bytes it stands on and the line on which it ends, and a token for
the end of the program as the last. A cursor hands them out one at a time and
has nothing more to give once it has given the end.
-/
import Lox.Source.Lexeme

namespace Lox.Source

/-- What is found at a place of the source. -/
inductive Found
  | token (t : Token)
  | fault (line : Nat) (f : LexFault)

/-- The line on which an item ends. -/
def Found.line : Found → Nat
  | .token t => t.line
  | .fault line _ => line

/-- Whether it is a fault. -/
def Found.isFault : Found → Bool
  | .token _ => false
  | .fault .. => true

/-- A token or a fault, and the bytes of the source from `start` up to `stop` that it stands on. -/
structure Item where
  start : Nat
  stop : Nat
  found : Found

/-- A place in a source: the bytes ahead, how many are behind, the line, and whether the end has
been given. -/
structure Cursor where
  rest : List UInt8
  offset : Nat
  line : Nat
  ended : Bool

/-- The start of a source. -/
def Cursor.ofBytes (bytes : List UInt8) : Cursor := ⟨bytes, 0, 1, false⟩

/-- The place behind a piece. -/
def Cursor.past (c : Cursor) (p : Cut) : Cursor :=
  ⟨p.rest, c.offset + p.taken.length, c.line + p.taken.count lineFeed, c.ended⟩

/-- How much a cursor still has to give. -/
def Cursor.weight (c : Cursor) : Nat := if c.ended then 0 else c.rest.length + 1

/-- The next item, and the place behind it. -/
def Cursor.next? (c : Cursor) : Option (Item × Cursor) :=
  if c.ended then none
  else match _h : c.rest with
    | [] => some (⟨c.offset, c.offset, .token (.eof c.line)⟩, { c with ended := true })
    | b :: bytes =>
      let p := cut b bytes
      let past := c.past p
      match p.piece with
      | .blank => past.next?
      | .token kind =>
        some (⟨c.offset, past.offset, .token ⟨kind, Utf8.lenient p.taken, past.line⟩⟩, past)
      | .fault f => some (⟨c.offset, past.offset, .fault past.line f⟩, past)
termination_by c.rest.length
decreasing_by rw [_h]; exact rest_length_lt b bytes

theorem Cursor.past_weight {c : Cursor} {b : UInt8} {bytes : List UInt8} (h : c.rest = b :: bytes)
    (he : c.ended = false) : (c.past (cut b bytes)).weight < c.weight := by
  have := rest_length_lt b bytes
  simp only [weight, past, he, h]
  simpa using this

/-- Every item brings the end nearer. -/
theorem Cursor.next?_weight {c c' : Cursor} {i : Item} (h : c.next? = some (i, c')) :
    c'.weight < c.weight := by
  fun_induction Cursor.next? c with
  | case1 => simp at h
  | case2 c he hr =>
    simp only [Option.some.injEq, Prod.mk.injEq] at h
    simp [← h.2, weight, he]
  | case3 c he b bytes hr p past hp ih =>
    exact Nat.lt_trans (ih h) (past_weight hr (by simpa using he))
  | case4 c he b bytes hr p past kind hp =>
    simp only [Option.some.injEq, Prod.mk.injEq] at h
    exact h.2 ▸ past_weight hr (by simpa using he)
  | case5 c he b bytes hr p past f hp =>
    simp only [Option.some.injEq, Prod.mk.injEq] at h
    exact h.2 ▸ past_weight hr (by simpa using he)

/-- All items from a place on, behind those in `found`, latest first. -/
def Cursor.itemsAfter (found : List Item) (c : Cursor) : List Item :=
  match _h : c.next? with
  | none => found.reverse
  | some (i, past) => past.itemsAfter (i :: found)
termination_by c.weight
decreasing_by exact next?_weight _h

/-- All items of a source. -/
def items (bytes : List UInt8) : List Item := (Cursor.ofBytes bytes).itemsAfter []

/-- The tokens among items. -/
def tokensOf (items : List Item) : List Token :=
  items.filterMap fun i => match i.found with
    | .token t => some t
    | .fault .. => none

/-- The faults among items. -/
def faultsOf (items : List Item) : List Diagnostic :=
  items.filterMap fun i => match i.found with
    | .token _ => none
    | .fault line f => some (.lex line f)

/-- What a source is read as: its tokens, what is wrong with the rest of it, and whether anything
is. -/
structure Scanned where
  tokens : List Token
  errors : List Diagnostic
  failed : Bool

/-- Reads a whole source. -/
def scan (bytes : List UInt8) : Scanned :=
  let found := items bytes
  ⟨tokensOf found, faultsOf found, found.any fun i => i.found.isFault⟩

end Lox.Source
