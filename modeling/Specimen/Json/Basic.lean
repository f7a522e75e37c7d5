import Specimen.Entries
import Specimen.Binary64.Nearest

/-!
# JSON trees

A JSON document as a tree. Numbers are integers or doubles, as they were written. The entries of
an object stand in the order in which they are shown: objects that come from reading or from
flattening a sample are in byte order, objects that describe a declaration are in the order of
their description.
-/

namespace Specimen

/-- A JSON value. -/
inductive Json where
  | null
  | bool (value : Bool)
  | integer (value : Int)
  | double (value : Float)
  | string (value : String)
  | array (items : List Json)
  | object (entries : List (String × Json))
deriving Inhabited

namespace Json

/-- The least and the greatest integer that a JSON number is kept as. -/
def leastInteger : Int := Int64.minValue.toInt

/-- See `leastInteger`. -/
def greatestInteger : Int := 18446744073709551615

/-- The truth value of a JSON truth value. -/
def bool? : Json → Option Bool
  | .bool value => some value
  | _ => none

/-- The text of a JSON string. -/
def string? : Json → Option String
  | .string value => some value
  | _ => none

/-- The items of a JSON array. -/
def array? : Json → Option (List Json)
  | .array items => some items
  | _ => none

/-- The entries of a JSON object. -/
def object? : Json → Option (List (String × Json))
  | .object entries => some entries
  | _ => none

/-- A JSON number as a double. -/
def number? : Json → Option Float
  | .integer value => some (Binary64.ofInt value)
  | .double value => some value
  | _ => none

/-- A JSON integer that is not negative. -/
def natural? : Json → Option Nat
  | .integer value => if 0 ≤ value then some value.toNat else none
  | _ => none

/-- The object with the given entries, put into byte order. -/
def ofEntries (entries : List (String × Json)) : Json :=
  .object (Entries.sortByName entries)

end Json

end Specimen
