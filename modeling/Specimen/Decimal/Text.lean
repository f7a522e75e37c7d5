import Specimen.Decimal.Shortest

/-!
# The text of a double

How JSON documents write numbers: the shortest digits, positionally while the exponent of the first
digit is between `-5` and `15`, and with an exponent mark outside that range.
-/

namespace Specimen.Decimal

/-- Where positional writing ends: the least and the greatest exponent of the first digit. -/
structure PositionalRange where
  least : Int
  greatest : Int

/-- Positional from `0.00001` up to `9999999999999999.0`. -/
def positionalRange : PositionalRange :=
  ⟨-5, 15⟩

/-- The digits of a natural number. -/
def natChars (n : Nat) : List Char :=
  digitsOf n

/-- The digits of an integer, after a minus sign if it is negative. -/
def intChars (n : Int) : List Char :=
  if n < 0 then '-' :: natChars n.natAbs else natChars n.natAbs

/-- The digits with a point, and at least one digit on each side of it. -/
def Scientific.positionalChars (d : Scientific) : List Char :=
  if d.exponent < 0 then
    '0' :: '.' :: (List.replicate (-d.exponent - 1).toNat '0' ++ d.digits)
  else
    let whole := d.exponent.toNat + 1
    if d.digits.length ≤ whole then
      d.digits ++ List.replicate (whole - d.digits.length) '0' ++ ['.', '0']
    else
      d.digits.take whole ++ '.' :: d.digits.drop whole

/-- One digit, the point and the other digits if there are any, and the signed exponent. -/
def Scientific.exponentChars (d : Scientific) : List Char :=
  let mantissa :=
    match d.digits with
    | first :: second :: rest => first :: '.' :: second :: rest
    | digits => digits
  let sign := if d.exponent < 0 then '-' else '+'
  mantissa ++ 'e' :: sign :: natChars d.exponent.natAbs

/-- The text of a decimal. -/
def Scientific.chars (d : Scientific) : List Char :=
  if positionalRange.least ≤ d.exponent ∧ d.exponent ≤ positionalRange.greatest then
    d.positionalChars
  else
    d.exponentChars

/-- The text of a finite double. Both zeros are written with one decimal place. -/
def floatChars (x : Float) : List Char :=
  let body := if Binary64.mantissa x = 0 then ['0', '.', '0'] else (shortest x).chars
  if Binary64.isNegative x then '-' :: body else body

end Specimen.Decimal
