import Specimen.Declaration.Basic
import Specimen.Json.Text

/-!
# Sample values

A sample is a generated value. Beside the values of JSON there are maps and sets, which keep the
order of insertion, and `undefined` for a branch that was cut off.

This module has the type, the test of truth, the parts of a sample by kind, and equality. Equality
is by kind and value: an integer is never equal to a double, doubles are compared as numbers, the
fields of two objects are compared by name, and all other collections are compared in order.
-/

namespace Specimen

/-- A generated value. -/
inductive Sample where
  | undefined
  | null
  | bool (value : Bool)
  | int (value : Int64)
  | float (value : Float)
  | string (value : String)
  | array (items : List Sample)
  /-- An instance of an interface: its fields in order of first declaration. -/
  | object (fields : List (String × Sample))
  | map (entries : List (Sample × Sample))
  | set (members : List Sample)
deriving Inhabited

namespace Sample

/-- The sample is `undefined`. -/
def isUndefined : Sample → Bool
  | .undefined => true
  | _ => false

/-- The sample is `null`. -/
def isNull : Sample → Bool
  | .null => true
  | _ => false

/-- Truth of a value: `undefined`, `null`, `false`, zero, NaN and the empty text are false. -/
def isTruthy : Sample → Bool
  | .undefined => false
  | .null => false
  | .bool value => value
  | .int value => value != 0
  | .float value => value != 0 && !value.isNaN
  | .string value => value != ""
  | .array _ => true
  | .object _ => true
  | .map _ => true
  | .set _ => true

/-- The truth value of a truth value. -/
def bool? : Sample → Option Bool
  | .bool value => some value
  | _ => none

/-- The integer of an integer. -/
def int? : Sample → Option Int64
  | .int value => some value
  | _ => none

/-- The double of a number of either kind. -/
def number? : Sample → Option Float
  | .int value => some (Binary64.ofInt value.toInt)
  | .float value => some value
  | _ => none

/-- The text of a text. -/
def string? : Sample → Option String
  | .string value => some value
  | _ => none

/-- The items of an array. -/
def array? : Sample → Option (List Sample)
  | .array items => some items
  | _ => none

/-- The fields of an object. -/
def object? : Sample → Option (List (String × Sample))
  | .object fields => some fields
  | _ => none

/-- The entries of a map. -/
def map? : Sample → Option (List (Sample × Sample))
  | .map entries => some entries
  | _ => none

/-- The members of a set. -/
def set? : Sample → Option (List Sample)
  | .set members => some members
  | _ => none

/-- A field of an object. -/
def field? (sample : Sample) (name : String) : Option Sample :=
  sample.object?.bind (Entries.find? name)

mutual

/-- Equality of samples. -/
def eq : Sample → Sample → Bool
  | .undefined, .undefined => true
  | .null, .null => true
  | .bool a, .bool b => a == b
  | .int a, .int b => a == b
  | .float a, .float b => a == b
  | .string a, .string b => a == b
  | .array a, .array b => eqItems a b
  | .object a, .object b => a.length == b.length && eqFields a b
  | .map a, .map b => eqEntries a b
  | .set a, .set b => eqItems a b
  | _, _ => false
termination_by structural a => a

/-- Equality of lists, in order. -/
def eqItems : List Sample → List Sample → Bool
  | [], [] => true
  | a :: as, b :: bs => eq a b && eqItems as bs
  | _, _ => false
termination_by structural a => a

/-- Every field on the left is on the right with an equal value. -/
def eqFields : List (String × Sample) → List (String × Sample) → Bool
  | [], _ => true
  | (name, a) :: as, other =>
      (match Entries.find? name other with
        | some b => eq a b
        | none => false) && eqFields as other
termination_by structural a => a

/-- Equality of the entries of maps, in order. -/
def eqEntries : List (Sample × Sample) → List (Sample × Sample) → Bool
  | [], [] => true
  | (key, value) :: as, (key', value') :: bs =>
      eq key key' && eq value value' && eqEntries as bs
  | _, _ => false
termination_by structural a => a

end

instance : BEq Sample := ⟨eq⟩

/-- The value under a key of a map. -/
def mapValue? (sample : Sample) (key : Sample) : Option Sample :=
  sample.map?.bind fun entries => (entries.find? fun entry => entry.1 == key).map Prod.snd

end Sample

end Specimen
