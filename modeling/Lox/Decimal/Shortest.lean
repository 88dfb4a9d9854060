/-
The fewest decimal digits that read back as a given binary number. The numbers
that round to m·2^q form a span around it. Among the grids of the multiples of
10^k, the coarsest with a point in the span wins; of two neighbours in the span
the nearer one, and of two equally near ones the one that the tie rule picks.
All arithmetic is exact.
-/
import Lox.Decimal.Parts

namespace Lox.Decimal

/-- The decimal number `digits`·10^`exponent`. -/
structure Numeral where
  digits : Nat
  exponent : Int
deriving DecidableEq, Repr

/-- Which of two equally near neighbours is taken. -/
inductive Tie
  /-- The larger one. -/
  | up
  /-- The one with an even last digit. -/
  | even
deriving DecidableEq, Repr

/-- The choice between `d` and `d + 1` when both are equally near. -/
def Tie.pick : Tie → Nat → Nat
  | .up, d => d + 1
  | .even, d => if d % 2 = 0 then d else d + 1

/-- The numbers that round to a binary number, in quarters of its last place: those between
`low` and `high`, the bounds included if `closed`. -/
structure Span where
  low : Nat
  mid : Nat
  high : Nat
  closed : Bool
deriving Repr

/-- The span of m·2^q. Below a power of two the next smaller number is only half as far away,
except at the bottom of the range. A bound rounds to the number with the even m. -/
def Span.of (m : Nat) (q : Int) : Span where
  low := if m = hiddenBit ∧ q ≠ -1074 then 4 * m - 1 else 4 * m - 2
  mid := 4 * m
  high := 4 * m + 2
  closed := m % 2 == 0

/-- A quarter of 2^q is this many times the unit that `Span.grid` names. -/
def Span.scale (q k : Int) : Nat := Nat.pow 2 (q - 2).toNat * Nat.pow 10 (-k).toNat

/-- The distance of two multiples of 10^k, in the unit of which a quarter of 2^q holds
`Span.scale`. -/
def Span.grid (q k : Int) : Nat := Nat.pow 2 (2 - q).toNat * Nat.pow 10 k.toNat

/-- Whether `d`·10^k lies in the span. -/
def Span.has (s : Span) (q k : Int) (d : Nat) : Bool :=
  let x := d * Span.grid q k
  if s.closed then s.low * Span.scale q k ≤ x && x ≤ s.high * Span.scale q k
  else s.low * Span.scale q k < x && x < s.high * Span.scale q k

/-- The multiple of 10^k below the middle of the span, or at it. -/
def Span.below (s : Span) (q k : Int) : Nat := s.mid * Span.scale q k / Span.grid q k

/-- The multiple of 10^k in the span that is nearest to its middle. -/
def Span.nearest? (s : Span) (tie : Tie) (q k : Int) : Option Nat :=
  let d := s.below q k
  let double := 2 * (s.mid * Span.scale q k % Span.grid q k)
  match s.has q k d, s.has q k (d + 1) with
  | true, true =>
    some (if double < Span.grid q k then d
      else if Span.grid q k < double then d + 1 else tie.pick d)
  | true, false => some d
  | false, true => some (d + 1)
  | false, false => none

/-- Goes from the grid of 10^k to finer ones, `n` of them at most. -/
def Span.descend (s : Span) (tie : Tie) (q : Int) : Nat → Int → Numeral
  | 0, k => ⟨s.below q k, k⟩
  | n + 1, k =>
    match s.nearest? tie q k with
    | some d => ⟨d, k⟩
    | none => s.descend tie q n (k - 1)

/-- A power of ten above every number that rounds to m·2^q, by way of 1233/4096, which is just
below the logarithm of two. -/
def ceiling (m : Nat) (q : Int) : Int := ((m.log2 : Int) + q) * 1233 / 4096 + 2

/-- The fewest digits that read back as m·2^q. Seventeen always do, so that of the grids below
the ceiling two dozen are enough. -/
def shortest (tie : Tie) (m : Nat) (q : Int) : Numeral :=
  if m = 0 then ⟨0, 0⟩ else (Span.of m q).descend tie q 24 (ceiling m q)

end Lox.Decimal
