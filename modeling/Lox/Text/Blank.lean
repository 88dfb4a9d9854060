/-
White space, as Unicode defines it: the code points of the property
White_Space. A line of nothing else is blank.
-/

namespace Lox

/-- The ranges of the property White_Space, both ends included. -/
def whiteSpace : List (Nat × Nat) :=
  [(0x09, 0x0D), (0x20, 0x20), (0x85, 0x85), (0xA0, 0xA0), (0x1680, 0x1680), (0x2000, 0x200A),
   (0x2028, 0x2029), (0x202F, 0x202F), (0x205F, 0x205F), (0x3000, 0x3000)]

/-- Whether a character is white space. -/
def isBlank (c : Char) : Bool := whiteSpace.any fun r => r.1 ≤ c.toNat && c.toNat ≤ r.2

/-- Whether a line has nothing but white space. -/
def isBlankLine (line : String) : Bool := line.toList.all isBlank

end Lox
