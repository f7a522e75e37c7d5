import Specimen.Options.Basic
import Specimen.Random.Uniform

/-!
# Leaves

Random texts, integers, floats and truth values. Bounds may be given in either order; a bound that
is not finite counts as missing.

A text breaks the run off if it takes more bytes than a size can say. That a machine has less memory
than sizes can say is not modelled.
-/

namespace Specimen

/-- The greatest size in bytes: it takes sixty-three bits. -/
def greatestSize : Nat := 0x7FFFFFFFFFFFFFFF

namespace Leaf

/-- The least and the greatest length of a text when nothing is said about it. -/
def defaultLeastLength : Nat := 1

/-- See `defaultLeastLength`. -/
def defaultGreatestLength : Nat := 10

/-- The least and the greatest number when nothing is said about it. -/
def defaultLeast : Float := Binary64.ofInt 0

/-- See `defaultLeast`. -/
def defaultGreatest : Float := Binary64.ofInt 1000

/-- The decimal places of a float when nothing is said about them. -/
def defaultPlaces : Nat := 2

/-- More decimal places than these are not kept. -/
def greatestPlaces : Nat := 15

/-- The Latin letters and the digits. -/
def latinChars : Array Char :=
  "ABCDEFGHIJKLMNOPQRSTUVWXYZabcdefghijklmnopqrstuvwxyz0123456789".toList.toArray

/-- The code points of the first and the last ideograph. -/
def firstIdeograph : Nat := 0x4E00

/-- See `firstIdeograph`. -/
def lastIdeograph : Nat := 0x9FA5

variable {σ : Type} [WordSource σ]

/-- A letter or digit. -/
def latinChar : Draw σ Char := do
  let place ← Draw.place latinChars.size
  return latinChars.getD place 'A'

/-- An ideograph. -/
def ideograph : Draw σ Char := do
  let offset ← Draw.below32 (lastIdeograph - firstIdeograph + 1)
  return Char.ofNat (firstIdeograph + offset)

/-- The greatest length of a Latin text. Room for it, a byte for each character, is made before the
first is drawn. -/
def latinRoom : Nat := greatestSize

/-- The greatest length of a text of ideographs. Each takes three bytes, and the room for them is
doubled whenever it is used up, so that it is a power of two. -/
def ideographRoom : Nat := (greatestSize + 1) / 2 / 3

/-- A text of characters that are drawn one after the other. Without room for so many of them the
run breaks off; that it does so before the first one makes no difference, since nothing is drawn
afterwards. -/
def textWithin (room : Nat) (char : Draw σ Char) (length : Nat) : Draw σ String :=
  if room < length then Draw.breakOff ""
  else do return String.ofList (← gather char length)

/-- A text of letters and digits. -/
def latinText (length : Nat) : Draw σ String :=
  textWithin latinRoom latinChar length

/-- A text of ideographs. -/
def ideographText (length : Nat) : Draw σ String :=
  textWithin ideographRoom ideograph length

/-- Whether a text is of Latin characters, and not of ideographs. -/
def isLatin : Alphabet → Draw σ Bool
  | .latin => pure true
  | .ideographs => pure false
  | .mixed => Draw.coin

/-- What is drawn of a text before its characters: its length, and whether it is Latin. -/
def textForm (bound other : Nat) (alphabet : Alphabet) : Draw σ (Nat × Bool) := do
  let length ← Draw.between (min bound other) (max bound other)
  return (length, ← isLatin alphabet)

/-- A text with a length between two bounds. -/
def text (bound other : Nat) (alphabet : Alphabet) : Draw σ String := do
  let (length, latin) ← textForm bound other alphabet
  if latin then latinText length else ideographText length

/-- Two bounds in order, with defaults in the place of bounds that are not finite. -/
def orderedBounds (bound other : Float) : Float × Float :=
  let least := if bound.isFinite then bound else defaultLeast
  let greatest := if other.isFinite then other else defaultGreatest
  if greatest < least then (greatest, least) else (least, greatest)

/-- The nearest integer of sixty-four bits with a sign. -/
def clampInt64 (n : Int) : Int :=
  max Int64.minValue.toInt (min n Int64.maxValue.toInt)

/-- An integer between two bounds. If there is none, it is the integer below the lower bound, and
nothing is drawn. -/
def integer (bound other : Float) : Draw σ Int64 := do
  let (least, greatest) := orderedBounds bound other
  let low := clampInt64 (Binary64.ceiling least)
  let high := clampInt64 (Binary64.floor greatest)
  if high < low then return Int64.ofInt (clampInt64 (Binary64.floor least))
  else return Int64.ofInt (← Draw.integer low high)

/-- `x` rounded to decimal places; `x` itself if it is too large for that. -/
def roundTo (places : Nat) (x : Float) : Float :=
  let factor := Binary64.ofInt (Nat.pow 10 (min places greatestPlaces))
  let scaled := x * factor
  if scaled.isFinite then Binary64.round scaled / factor else x

/-- `x` moved to the nearer end if it is outside a range. -/
def clampFloat (least greatest x : Float) : Float :=
  let raised := if x < least then least else x
  if greatest < raised then greatest else raised

/-- A float between two bounds, rounded. Nothing is drawn if the bounds are equal. The two bounds
are weighed, because their difference may be too large for a double. -/
def float (bound other : Float) (places : Nat) : Draw σ Float := do
  let (least, greatest) := orderedBounds bound other
  if least == greatest then return roundTo places least
  let weight ← Draw.fraction
  let mixed := least * (Binary64.ofInt 1 - weight) + greatest * weight
  return roundTo places (clampFloat least greatest mixed)

/-- A number when nothing is said about it: an integer or a float. -/
def number : Draw σ Sample := do
  if ← Draw.coin then return .int (← integer defaultLeast defaultGreatest)
  else return .float (← float defaultLeast defaultGreatest defaultPlaces)

/-- A value of a built-in type when nothing is said about it. -/
def ofPrimitive : Primitive → Draw σ Sample
  | .string => do
      return .string (← text defaultLeastLength defaultGreatestLength .mixed)
  | .number => number
  | .boolean => do return .bool (← Draw.coin)

end Leaf

end Specimen
