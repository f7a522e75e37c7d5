/-!
# Numbers in a base

The number that digits stand for in a base of at most sixteen, and the character that a number
stands for. Letters are digits in either case.
-/

namespace Specimen.Radix

/-- The value of a digit. -/
def digitValue? (c : Char) : Option Nat :=
  if '0' ≤ c ∧ c ≤ '9' then some (c.toNat - '0'.toNat)
  else if 'a' ≤ c ∧ c ≤ 'f' then some (c.toNat - 'a'.toNat + 10)
  else if 'A' ≤ c ∧ c ≤ 'F' then some (c.toNat - 'A'.toNat + 10)
  else none

/-- The value of a digit of the given base. -/
def digit? (base : Nat) (c : Char) : Option Nat :=
  (digitValue? c).filter fun value => decide (value < base)

/-- The number of a run of digits that goes on from a number. -/
def extend? (base : Nat) : Nat → List Char → Option Nat
  | n, [] => some n
  | n, c :: digits =>
      match digit? base c with
      | none => none
      | some value => extend? base (n * base + value) digits

/-- The number that digits stand for; no digits stand for none. -/
def natOfDigits? (base : Nat) (digits : List Char) : Option Nat :=
  if digits.isEmpty then none else extend? base 0 digits

/-- The character whose code point is a number. -/
def character? (n : Nat) : Option Char :=
  if h : n.isValidChar then some (Char.ofNatAux n h) else none

end Specimen.Radix
