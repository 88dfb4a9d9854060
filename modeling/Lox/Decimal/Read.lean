/-
Reading a number: an optional sign, then digits with an optional point and an
optional power of ten, or the name of infinity or of no number. The value is
the float nearest to the decimal that is written.
-/
namespace Lox.Decimal

/-- The number that decimal digits spell. -/
def natOfDigits (digits : List Char) : Nat :=
  digits.foldl (fun n c => 10 * n + (c.toNat - '0'.toNat)) 0

/-- The power of ten at the end of a number: none stands for zero. -/
def exponent? : List Char → Option Int
  | [] => some 0
  | 'e' :: rest | 'E' :: rest =>
    let negative := rest.head? == some '-'
    let digits := if rest.head? == some '-' || rest.head? == some '+' then rest.drop 1 else rest
    if digits.isEmpty || !digits.all Char.isDigit then none
    else some (if negative then -(natOfDigits digits : Int) else natOfDigits digits)
  | _ => none

/-- The float nearest to `digits`·10^`exponent`. -/
def nearest (digits : Nat) (exponent : Int) : Float :=
  Float.ofScientific digits (exponent < 0) exponent.natAbs

/-- Digits, a point among them or beside them, and a power of ten. -/
def unsigned? (text : List Char) : Option Float :=
  let whole := text.takeWhile Char.isDigit
  let rest := text.dropWhile Char.isDigit
  let (fraction, rest) := match rest with
    | '.' :: r => (r.takeWhile Char.isDigit, r.dropWhile Char.isDigit)
    | r => ([], r)
  if whole.isEmpty && fraction.isEmpty then none
  else (exponent? rest).map fun e => nearest (natOfDigits (whole ++ fraction)) (e - fraction.length)

/-- The names of the values that have no digits, in any case. -/
def named? (text : List Char) : Option Float :=
  match String.ofList (text.map Char.toLower) with
  | "inf" | "infinity" => some (1.0 / 0.0)
  | "nan" => some (0.0 / 0.0)
  | _ => none

/-- Reads a whole text as a number. -/
def read? (text : String) : Option Float :=
  let (negative, rest) := match text.toList with
    | '-' :: r => (true, r)
    | '+' :: r => (false, r)
    | r => (false, r)
  (named? rest <|> unsigned? rest).map fun x => if negative then -x else x

end Lox.Decimal
