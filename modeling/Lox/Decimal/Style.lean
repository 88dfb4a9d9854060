/-
How a number is written. A style is a record of the choices that the fewest
digits leave open; beside it stands the form that writes whole numbers out in
full.
-/
import Lox.Decimal.Parts
import Lox.Decimal.Shortest

namespace Lox.Decimal

/-- The decimal digits of a natural number. -/
def digitsOf (n : Nat) : List Char := Nat.toDigits 10 n

/-- The digits with the decimal point where it belongs, and zeros as needed to reach it. -/
def Numeral.positional (n : Numeral) : String :=
  let digits := digitsOf n.digits
  let places := (-n.exponent).toNat
  String.ofList <|
    if places = 0 then digits ++ List.replicate n.exponent.toNat '0'
    else if places < digits.length then
      digits.take (digits.length - places) ++ '.' :: digits.drop (digits.length - places)
    else '0' :: '.' :: (List.replicate (places - digits.length) '0' ++ digits)

/-- One digit before the point, the others behind it, and the power of ten with its sign. -/
def Numeral.scientific (n : Numeral) : String :=
  let digits := digitsOf n.digits
  let power := n.exponent + digits.length - 1
  let tail := digits.drop 1
  String.ofList (digits.take 1 ++ (if tail.isEmpty then [] else '.' :: tail)) ++ "e" ++
    (if power < 0 then "" else "+") ++ toString power

/-- The choices of a way to write numbers in the fewest digits. -/
structure Style where
  /-- Which of two equally near decimals is taken. -/
  tie : Tie
  /-- The places of the decimal point, counted from before the first digit, at which positional
  writing is used; everywhere if there are no bounds. -/
  places : Option (Int × Int)
  /-- What follows a whole number in positional writing. -/
  wholeMark : String

/-- No exponent at any size, no mark on whole numbers, a tie goes up. -/
def plain : Style := ⟨.up, none, ""⟩

/-- Numbers of JSON documents: positional from 10^-5 up to 10^16, whole numbers marked by `.0`,
a tie goes to the even digit. -/
def json : Style := ⟨.even, some (-4, 16), ".0"⟩

/-- Whether the style writes this decimal without an exponent. -/
def Style.isPositional (style : Style) (n : Numeral) : Bool :=
  match style.places with
  | none => true
  | some (low, high) =>
    let place := n.exponent + (digitsOf n.digits).length
    low ≤ place && place ≤ high

/-- A decimal in the style. -/
def Style.write (style : Style) (n : Numeral) : String :=
  if style.isPositional n then
    n.positional ++ if 0 ≤ n.exponent then style.wholeMark else ""
  else n.scientific

/-- A text with its sign. -/
def signed (negative : Bool) (text : String) : String := if negative then "-" ++ text else text

/-- A float whose finite values are written by `magnitude`, from m and q. -/
def textBy (magnitude : Nat → Int → String) (x : Float) : String :=
  match parts x with
  | .nan => "NaN"
  | .infinite negative => signed negative "inf"
  | .finite negative m q => signed negative (magnitude m q)

/-- A float in the style. -/
def Style.text (style : Style) : Float → String :=
  textBy fun m q => style.write (shortest style.tie m q)

/-- A float whose whole values are written out in full, with `mark` after them, and whose other
values are plain. -/
def inFull (mark : String) : Float → String :=
  textBy fun m q =>
    match whole? m q with
    | some n => String.ofList (digitsOf n) ++ mark
    | none => plain.write (shortest plain.tie m q)

end Lox.Decimal
