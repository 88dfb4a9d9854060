/-
The parts of a 64-bit floating-point number. Every finite one is a sign and
m·2^q, with a natural m below 2^53.
-/

namespace Lox.Decimal

/-- What a float is made of. -/
inductive Parts
  | nan
  | infinite (negative : Bool)
  /-- The number ±m·2^q. -/
  | finite (negative : Bool) (m : Nat) (q : Int)
deriving DecidableEq, Repr

/-- Two to the 52nd: the bit that a pattern leaves out and that all but the smallest numbers
have, above the 52 bits of the fraction. -/
def hiddenBit : Nat := 1 <<< 52

/-- The parts that a bit pattern stands for: sign, eleven bits of exponent, 52 of fraction. -/
def Parts.ofBits (bits : Nat) : Parts :=
  let negative := bits.testBit 63
  let exponent : Nat := bits / hiddenBit % 2048
  let fraction : Nat := bits % hiddenBit
  if exponent = 2047 then if fraction = 0 then .infinite negative else .nan
  else if exponent = 0 then .finite negative fraction (-1074)
  else .finite negative (hiddenBit + fraction) (Int.ofNat exponent - 1075)

/-- The parts of a float. -/
def parts (x : Float) : Parts := Parts.ofBits x.toBits.toNat

/-- The number m·2^q, if it is whole. -/
def whole? (m : Nat) : Int → Option Nat
  | .ofNat n => some (m <<< n)
  | .negSucc n => if m % (1 <<< (n + 1)) = 0 then some (m >>> (n + 1)) else none

theorem Parts.ofBits_finite_lt {bits : Nat} {negative : Bool} {m : Nat} {q : Int}
    (h : Parts.ofBits bits = .finite negative m q) : m < 2 * hiddenBit := by
  simp only [Parts.ofBits] at h
  have hf : bits % hiddenBit < hiddenBit := Nat.mod_lt _ (by decide)
  split at h
  · split at h <;> exact absurd h (by simp)
  · split at h <;> (simp only [Parts.finite.injEq] at h; omega)

end Lox.Decimal
