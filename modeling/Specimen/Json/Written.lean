import Specimen.Json.Basic
import Specimen.Json.Number

/-!
# Written JSON

A JSON document as its text has it: strings with their escapes, numbers with their digits, and all
entries of an object in their order, several under one name included. `Json.Written.toJson?` makes a
tree of it, where that is possible: an escape may stand for no character, a number may be too large
for a double, and arrays and objects may stand too deep inside each other. Which double a number
stands for is left open there (`toDouble`); for documents that are read it is `Json.readDouble`.

So a document can be taken apart before all of it is asked to have a meaning.
-/

namespace Specimen.Json

open Decimal (Numeral)

/-- How deep arrays and objects may stand inside each other. -/
def nestingLimit : Nat := 127

/-! ## Strings -/

/-- A part of a string. -/
inductive StringPart where
  /-- A character, as it stands or by its letter. -/
  | char (c : Char)
  /-- Sixteen bits, by their hexadecimal digits. -/
  | unit (value : Nat)
deriving DecidableEq, Repr

/-- The first half of a surrogate pair. -/
def isHighSurrogate (n : Nat) : Bool :=
  decide (0xD800 ≤ n ∧ n < 0xDC00)

/-- The second half of a surrogate pair. -/
def isLowSurrogate (n : Nat) : Bool :=
  decide (0xDC00 ≤ n ∧ n < 0xE000)

/-- The character of a surrogate pair. -/
def surrogatePair (high low : Nat) : Char :=
  Char.ofNat (0x10000 + (high - 0xD800) * 1024 + (low - 0xDC00))

/-- The text of a string. Surrogates stand for a character only in pairs. -/
def decode? : List StringPart → Option (List Char)
  | [] => some []
  | .char c :: parts => (decode? parts).map (c :: ·)
  | .unit first :: parts =>
      if isLowSurrogate first then none
      else if isHighSurrogate first then
        match parts with
        | .unit second :: parts =>
            if isLowSurrogate second then (decode? parts).map (surrogatePair first second :: ·)
            else none
        | _ => none
      else (decode? parts).map (Char.ofNat first :: ·)

/-! ## Numbers -/

/-- A number with neither point nor exponent mark is an integer if it is in range, and every other
number is a double; `-0` is a double. A number too large for a double is no value. -/
def ofNumeral? (toDouble : Numeral → Float) (n : Numeral) : Option Json :=
  let size := Decimal.natOfDigits n.whole
  let isInteger :=
    n.fraction.isNone && n.exponent.isNone &&
      (if n.negative then decide (0 < size ∧ leastInteger ≤ -(size : Int))
        else decide ((size : Int) ≤ greatestInteger))
  if isInteger then some (.integer (if n.negative then -(size : Int) else size))
  else if (toDouble n).isFinite then some (.double (toDouble n))
  else none

/-! ## Documents -/

/-- A JSON value as it is written. -/
inductive Written where
  | null
  | bool (value : Bool)
  | number (numeral : Numeral)
  | string (parts : List StringPart)
  | array (items : List Written)
  | object (entries : List (List StringPart × Written))

namespace Written

section Trees

variable (toDouble : Numeral → Float)

mutual

/-- The tree of a written value with at most the given number of levels. Entries stay as they
are. -/
def toJson? : Written → (levels : Nat) → Option Json
  | .null, _ => some .null
  | .bool value, _ => some (.bool value)
  | .number numeral, _ => ofNumeral? toDouble numeral
  | .string parts, _ => (decode? parts).map fun text => .string (String.ofList text)
  | .array items, levels =>
      match levels with
      | 0 => none
      | levels + 1 => (itemsToJson? items levels).map .array
  | .object entries, levels =>
      match levels with
      | 0 => none
      | levels + 1 => (entriesToJson? entries levels).map .object
termination_by structural written => written

/-- The trees of written values. -/
def itemsToJson? : List Written → (levels : Nat) → Option (List Json)
  | [], _ => some []
  | item :: items, levels =>
      match item.toJson? levels with
      | none => none
      | some item => (itemsToJson? items levels).map (item :: ·)
termination_by structural items => items

/-- The trees of written entries. -/
def entriesToJson? :
    List (List StringPart × Written) → (levels : Nat) → Option (List (String × Json))
  | [], _ => some []
  | entry :: entries, levels =>
      match entryToJson? entry levels with
      | none => none
      | some entry => (entriesToJson? entries levels).map (entry :: ·)
termination_by structural entries => entries

/-- The tree of a written entry. -/
def entryToJson? : List StringPart × Written → (levels : Nat) → Option (String × Json)
  | (name, value), levels =>
      match decode? name, value.toJson? levels with
      | some name, some value => some (String.ofList name, value)
      | _, _ => none
termination_by structural entry => entry

end

end Trees

end Written

/-! ## Order -/

mutual

/-- A tree with the entries of all its objects in byte order, each name once. -/
def sorted : Json → Json
  | .null => .null
  | .bool value => .bool value
  | .integer value => .integer value
  | .double value => .double value
  | .string value => .string value
  | .array items => .array (sortedItems items)
  | .object entries => .ofEntries (sortedEntries entries)
termination_by structural json => json

/-- The same for the items of an array. -/
def sortedItems : List Json → List Json
  | [] => []
  | item :: items => item.sorted :: sortedItems items
termination_by structural items => items

/-- The same for the values of an object. -/
def sortedEntries : List (String × Json) → List (String × Json)
  | [] => []
  | entry :: entries => sortedEntry entry :: sortedEntries entries
termination_by structural entries => entries

/-- The same for the value of an entry. -/
def sortedEntry : String × Json → String × Json
  | (name, value) => (name, value.sorted)
termination_by structural entry => entry

end

end Specimen.Json
