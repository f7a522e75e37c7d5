import Specimen.Sample.Basic

/-!
# Samples and JSON

`toJson` flattens a sample: a map becomes an object, a set becomes an array, a field or an entry
without a value is left out, and `undefined` elsewhere becomes `null`. The key of a map entry is
the text of a text, and the compact JSON text of any other key; if two keys get the same text, the
later value stays.

`ofJson` reads a JSON tree as a sample, with the entries of objects in the order of the tree.
-/

namespace Specimen.Sample

/-- The integer fits the integers of samples. -/
def fitsInt64 (n : Int) : Bool :=
  decide (Int64.minValue.toInt ≤ n ∧ n ≤ Int64.maxValue.toInt)

mutual

/-- The JSON tree of a sample. -/
def toJson : Sample → Json
  | .undefined => .null
  | .null => .null
  | .bool value => .bool value
  | .int value => .integer value.toInt
  | .float value => if value.isFinite then .double value else .null
  | .string value => .string value
  | .array items => .array (jsonItems items)
  | .object fields => Json.ofEntries (jsonFields fields)
  | .map entries => Json.ofEntries (jsonEntries entries)
  | .set members => .array (jsonItems members)
termination_by structural sample => sample

/-- The JSON trees of a list of samples. -/
def jsonItems : List Sample → List Json
  | [] => []
  | item :: items => toJson item :: jsonItems items
termination_by structural items => items

/-- The JSON trees of the fields that have a value. -/
def jsonFields : List (String × Sample) → List (String × Json)
  | [] => []
  | (name, value) :: fields =>
      if value.isUndefined then jsonFields fields
      else (name, toJson value) :: jsonFields fields
termination_by structural fields => fields

/-- The JSON trees of the map entries that have a value, under the texts of their keys. -/
def jsonEntries : List (Sample × Sample) → List (String × Json)
  | [] => []
  | (key, value) :: entries =>
      let name :=
        match key with
        | .string text => text
        | _ => (toJson key).compact
      if value.isUndefined then jsonEntries entries
      else (name, toJson value) :: jsonEntries entries
termination_by structural entries => entries

end

mutual

/-- The sample of a JSON tree. An integer that does not fit becomes the nearest double. -/
def ofJson : Json → Sample
  | .null => .null
  | .bool value => .bool value
  | .integer value =>
      if fitsInt64 value then .int (Int64.ofInt value) else .float (Binary64.ofInt value)
  | .double value => .float value
  | .string value => .string value
  | .array items => .array (itemsOfJson items)
  | .object entries => .object (fieldsOfJson entries)
termination_by structural json => json

/-- The samples of a list of JSON trees. -/
def itemsOfJson : List Json → List Sample
  | [] => []
  | item :: items => ofJson item :: itemsOfJson items
termination_by structural items => items

/-- The samples of the entries of a JSON object. -/
def fieldsOfJson : List (String × Json) → List (String × Sample)
  | [] => []
  | (name, value) :: entries => (name, ofJson value) :: fieldsOfJson entries
termination_by structural entries => entries

end

/-- Below this limit every integer is a double. -/
def exactLimit : Nat := 9000000000000000

/-- The sample of an enumeration literal. A number without a fraction, and small enough for every
such number to be exact, is an integer. -/
def ofEnumLiteral : EnumLiteral → Sample
  | .string text => .string text
  | .number value =>
      let whole := Binary64.floor value
      if value.isFinite && whole == Binary64.ceiling value
          && decide (whole.natAbs < exactLimit) then
        .int (Int64.ofInt whole)
      else .float value

/-- The compact JSON text of a sample. -/
def jsonText (sample : Sample) : String :=
  sample.toJson.compact

end Specimen.Sample
