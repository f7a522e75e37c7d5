import Specimen.Entries

/-!
# Settings notation

The values of a TOML document that settings are made of: texts, integers, truth values, arrays and
tables. A table keeps how it came about, because that decides who may add to it:

* a table in braces is complete;
* a table that a dotted key made may get more dotted keys, and tables below it;
* a table with a header of its own may get tables below it, but no second header;
* a table that a longer header passed through may still get a header of its own.

`assign?` and `openTable?` follow these rules, and refuse to say anything twice.
-/

namespace Specimen

/-- How a table came about. -/
inductive TableOrigin where
  | braces
  | dottedKey
  | header
  | longerHeader
deriving DecidableEq, Repr

/-- A value of a document. -/
inductive Toml where
  | string (value : String)
  | integer (value : Int)
  | boolean (value : Bool)
  | array (items : List Toml)
  | table (origin : TableOrigin) (entries : List (String × Toml))

namespace Toml

/-- An array or table with nothing in it. -/
def isEmpty : Toml → Bool
  | .array items => items.isEmpty
  | .table _ entries => entries.isEmpty
  | _ => false

/-- Puts a value under a dotted key that has none. The tables on the way are made, or were made by
dotted keys. -/
def assign? : (key : List String) → Toml → List (String × Toml) → Option (List (String × Toml))
  | [], _, _ => none
  | [name], value, entries =>
      match Entries.find? name entries with
      | none => some (Entries.set name value entries)
      | some _ => none
  | name :: second :: names, value, entries =>
      match Entries.find? name entries with
      | none => (assign? (second :: names) value []).map (below entries name)
      | some (.table .dottedKey inner) =>
          (assign? (second :: names) value inner).map (below entries name)
      | some _ => none
where
  /-- The entries with the given ones as a table that a dotted key made. -/
  below (entries : List (String × Toml)) (name : String) (inner : List (String × Toml)) :
      List (String × Toml) :=
    Entries.set name (.table .dottedKey inner) entries

/-- Opens the table of a header. The tables on the way are made, or were made in any way but by
braces. -/
def openTable? : (header : List String) → List (String × Toml) → Option (List (String × Toml))
  | [], _ => none
  | [name], entries =>
      match Entries.find? name entries with
      | none => some (Entries.set name (.table .header []) entries)
      | some (.table .longerHeader inner) => some (Entries.set name (.table .header inner) entries)
      | some _ => none
  | name :: second :: names, entries =>
      match Entries.find? name entries with
      | none =>
          (openTable? (second :: names) []).map fun inner =>
            Entries.set name (.table .longerHeader inner) entries
      | some (.table origin inner) =>
          if origin = .braces then none
          else
            (openTable? (second :: names) inner).map fun inner =>
              Entries.set name (.table origin inner) entries
      | some _ => none

/-- Changes the entries of the table at the end of a way through tables. -/
def changeAt? (change : List (String × Toml) → Option (List (String × Toml))) :
    (way : List String) → List (String × Toml) → Option (List (String × Toml))
  | [], entries => change entries
  | name :: names, entries =>
      match Entries.find? name entries with
      | some (.table origin inner) =>
          (changeAt? change names inner).map fun inner =>
            Entries.set name (.table origin inner) entries
      | _ => none

end Toml

end Specimen
