import Specimen.Proofs.Json.Order
import Specimen.Sample.Json

/-!
# Samples of JSON trees

Flattening undoes the reading of a tree as a sample, where all integers of the tree fit. Every
tree that comes from flattening is of this kind (`keeps_toJson`), so reading such a tree and
flattening it again changes nothing. Main statement: `toJson_ofJson`.
-/

namespace Specimen

/-! ## The integers of a tree -/

namespace Json

mutual

/-- The integers in a tree. -/
def integers : Json → List Int
  | .integer value => [value]
  | .array items => itemsIntegers items
  | .object entries => entriesIntegers entries
  | _ => []
termination_by structural json => json

/-- The integers in the items of an array. -/
def itemsIntegers : List Json → List Int
  | [] => []
  | item :: items => item.integers ++ itemsIntegers items
termination_by structural items => items

/-- The integers in the values of an object. -/
def entriesIntegers : List (String × Json) → List Int
  | [] => []
  | (_, value) :: entries => value.integers ++ entriesIntegers entries
termination_by structural entries => entries

end

theorem mem_itemsIntegers {items : List Json} {n : Int} :
    n ∈ itemsIntegers items ↔ ∃ item ∈ items, n ∈ item.integers := by
  induction items with
  | nil => simp [itemsIntegers]
  | cons item items ih => simp [itemsIntegers, ih]

theorem mem_entriesIntegers {entries : List (String × Json)} {n : Int} :
    n ∈ entriesIntegers entries ↔ ∃ entry ∈ entries, n ∈ entry.2.integers := by
  induction entries with
  | nil => simp [entriesIntegers]
  | cons entry entries ih => simp [entriesIntegers, ih]

end Json

namespace Sample

/-! ## Trees that samples keep -/

/-- Reading the tree as a sample loses nothing. -/
inductive Keeps : Json → Prop
  | null : Keeps .null
  | bool (value : Bool) : Keeps (.bool value)
  | integer {value : Int} (hfits : fitsInt64 value = true) : Keeps (.integer value)
  | double {value : Float} (hfinite : value.isFinite = true) : Keeps (.double value)
  | string (value : String) : Keeps (.string value)
  | array {items : List Json} (hitems : ∀ item ∈ items, Keeps item) : Keeps (.array items)
  | object {entries : List (String × Json)} (hnames : Ascending (Entries.names entries))
      (hentries : ∀ entry ∈ entries, Keeps entry.2) : Keeps (.object entries)

theorem Keeps.ofEntries {entries : List (String × Json)} (h : ∀ entry ∈ entries, Keeps entry.2) :
    Keeps (Json.ofEntries entries) :=
  .object (Entries.ascending_sortByName entries) fun entry hentry =>
    h entry (Entries.mem_of_mem_sortByName hentry)

/-- A tree of a document is of this kind if its integers fit. -/
theorem keeps_of_ordered {json : Json} (hordered : json.Ordered) (hwritable : json.Writable)
    (hfits : ∀ n ∈ json.integers, fitsInt64 n = true) : Keeps json := by
  induction hordered with
  | null => exact .null
  | bool value => exact .bool value
  | integer value => exact .integer (hfits value List.mem_cons_self)
  | double value => exact .double (Json.writable_double_iff.mp hwritable)
  | string value => exact .string value
  | array hitems ih =>
      refine .array fun item hitem =>
        ih item hitem (Json.writable_array_iff.mp hwritable item hitem) ?_
      exact fun n hn => hfits n (Json.mem_itemsIntegers.mpr ⟨item, hitem, hn⟩)
  | object hnames hentries ih =>
      refine .object hnames fun entry hentry =>
        ih entry hentry (Json.writable_object_iff.mp hwritable entry hentry) ?_
      exact fun n hn => hfits n (Json.mem_entriesIntegers.mpr ⟨entry, hentry, hn⟩)

/-- The numbers of such a tree have a text. -/
theorem Keeps.writable {json : Json} (h : Keeps json) : json.Writable := by
  induction h with
  | null => exact .null
  | bool value => exact .bool value
  | integer hfits =>
      obtain ⟨hleast, hgreatest⟩ := of_decide_eq_true hfits
      rw [Int64.toInt_maxValue] at hgreatest
      refine .integer hleast ?_
      unfold Json.greatestInteger
      omega
  | double hfinite => exact .double hfinite
  | string value => exact .string value
  | array _ ih => exact .array ih
  | object _ _ ih => exact .object ih

theorem fitsInt64_toInt (value : Int64) : fitsInt64 value.toInt = true :=
  decide_eq_true ⟨Int64.minValue_le_toInt value, Int64.toInt_le value⟩

/-- The name that a key of a map is flattened to. -/
def keyText : Sample → String
  | .string text => text
  | key => key.toJson.compact

theorem jsonEntries_cons (key value : Sample) (entries : List (Sample × Sample)) :
    jsonEntries ((key, value) :: entries)
      = if value.isUndefined then jsonEntries entries
        else (keyText key, value.toJson) :: jsonEntries entries := by
  cases key <;> rfl

mutual

/-- Flattening gives trees of this kind only. -/
theorem keeps_toJson : (sample : Sample) → Keeps sample.toJson
  | .undefined => .null
  | .null => .null
  | .bool value => .bool value
  | .int value => .integer (fitsInt64_toInt value)
  | .float value => by
      rw [toJson]
      split
      · rename_i hfinite
        exact .double hfinite
      · exact .null
  | .string value => .string value
  | .array items => .array (keeps_jsonItems items)
  | .object fields => .ofEntries (keeps_jsonFields fields)
  | .map entries => .ofEntries (keeps_jsonEntries entries)
  | .set members => .array (keeps_jsonItems members)
termination_by structural sample => sample

/-- The same for a list of samples. -/
theorem keeps_jsonItems : (items : List Sample) → ∀ tree ∈ jsonItems items, Keeps tree
  | [] => by simp [jsonItems]
  | item :: items => List.forall_mem_cons.mpr ⟨keeps_toJson item, keeps_jsonItems items⟩
termination_by structural items => items

/-- The same for the values of fields. -/
theorem keeps_jsonFields : (fields : List (String × Sample)) →
    ∀ entry ∈ jsonFields fields, Keeps entry.2
  | [] => by simp [jsonFields]
  | (name, value) :: fields => by
      have hfields := keeps_jsonFields fields
      rw [jsonFields]
      split
      · exact hfields
      · exact List.forall_mem_cons.mpr ⟨keeps_toJson value, hfields⟩
termination_by structural fields => fields

/-- The same for the values of a map. -/
theorem keeps_jsonEntries : (entries : List (Sample × Sample)) →
    ∀ entry ∈ jsonEntries entries, Keeps entry.2
  | [] => by simp [jsonEntries]
  | (key, value) :: entries => by
      have hentries := keeps_jsonEntries entries
      rw [jsonEntries_cons]
      split
      · exact hentries
      · exact List.forall_mem_cons.mpr ⟨keeps_toJson value, hentries⟩
termination_by structural entries => entries

end

/-! ## Reading and flattening -/

theorem itemsOfJson_eq_map (items : List Json) : itemsOfJson items = items.map ofJson := by
  induction items with
  | nil => rfl
  | cons item items ih => rw [itemsOfJson, ih, List.map_cons]

theorem jsonItems_eq_map (items : List Sample) : jsonItems items = items.map toJson := by
  induction items with
  | nil => rfl
  | cons item items ih => rw [jsonItems, ih, List.map_cons]

/-- Every value of a document is a value of a sample. -/
theorem isUndefined_ofJson (json : Json) : (ofJson json).isUndefined = false := by
  cases json with
  | integer value =>
      rw [ofJson]
      split <;> rfl
  | _ => rfl

/-- No entry of an object is left out. -/
theorem jsonFields_fieldsOfJson (entries : List (String × Json)) :
    jsonFields (fieldsOfJson entries) = entries.map fun entry =>
      (entry.1, (ofJson entry.2).toJson) := by
  induction entries with
  | nil => rfl
  | cons entry entries ih =>
      rw [fieldsOfJson, jsonFields, isUndefined_ofJson, if_neg Bool.false_ne_true, ih,
        List.map_cons]

theorem toJson_ofJson_of_keeps {json : Json} (h : Keeps json) : (ofJson json).toJson = json := by
  induction h with
  | @integer value hfits =>
      obtain ⟨hleast, hgreatest⟩ := of_decide_eq_true hfits
      rw [Int64.toInt_minValue] at hleast
      rw [Int64.toInt_maxValue] at hgreatest
      rw [ofJson, if_pos hfits, toJson, Int64.toInt_ofInt_of_le hleast (by omega)]
  | double hfinite => rw [ofJson, toJson, if_pos hfinite]
  | array hitems ih =>
      rw [ofJson, toJson, itemsOfJson_eq_map, jsonItems_eq_map, List.map_map]
      exact congrArg Json.array ((List.map_congr_left ih).trans (List.map_id _))
  | @object entries hnames hentries ih =>
      have heach : entries.map (fun entry => (entry.1, (ofJson entry.2).toJson)) = entries := by
        refine (List.map_congr_left fun entry hentry => ?_).trans (List.map_id entries)
        exact Prod.ext rfl (ih entry hentry)
      rw [ofJson, toJson, jsonFields_fieldsOfJson, heach, Json.ofEntries_of_ascending hnames]
  | _ => rfl

/-- Flattening undoes the reading of every document whose integers fit; and whatever a sample is
flattened to is read as a sample that is flattened to the same. -/
theorem toJson_ofJson :
    (∀ json : Json, json.Ordered → json.Writable →
      (∀ n ∈ json.integers, fitsInt64 n = true) → (ofJson json).toJson = json)
    ∧ ∀ sample : Sample, (ofJson sample.toJson).toJson = sample.toJson :=
  ⟨fun _ hordered hwritable hfits =>
    toJson_ofJson_of_keeps (keeps_of_ordered hordered hwritable hfits),
    fun sample => toJson_ofJson_of_keeps (keeps_toJson sample)⟩

/-- A document with the least integer that fits, and a map with composite and with equal keys. -/
theorem toJson_ofJson_bounds :
    let bounds : Json := .object [("least", .integer (-9223372036854775808)),
      ("ratios", .array [.double (Float.ofBits 0x3FE0000000000000), .null])]
    let grid : Sample := .map [(.array [.int 1, .undefined], .float Float.nan),
      (.string "[1,null]", .bool true), (.null, .undefined)]
    bounds.Ordered ∧ bounds.Writable ∧ (∀ n ∈ bounds.integers, fitsInt64 n = true)
      ∧ (ofJson bounds).toJson = bounds
      ∧ grid.toJson = .object [("[1,null]", .bool true)]
      ∧ (ofJson grid.toJson).toJson = grid.toJson := by
  intro bounds grid
  have hordered : bounds.Ordered := by
    refine .object (List.pairwise_pair.mpr (by decide)) ?_
    simp [Json.Ordered.integer, Json.Ordered.double, Json.Ordered.null]
  have hwritable : bounds.Writable := by
    have hleast : Json.leastInteger ≤ -9223372036854775808 := by decide
    have hfinite : (Float.ofBits 0x3FE0000000000000).isFinite = true := by decide +kernel
    simpa [bounds, hfinite] using Json.Writable.integer hleast (by decide)
  have hfits : ∀ n ∈ bounds.integers, fitsInt64 n = true := by
    intro n hn
    obtain rfl := List.mem_singleton.mp hn
    exact fitsInt64_toInt Int64.minValue
  have hgrid : grid.toJson = .object [("[1,null]", .bool true)] := by
    have hnan : Float.nan.isFinite = false := by decide +kernel
    have hkey : keyText (.array [.int 1, .undefined]) = "[1,null]" := rfl
    have hvalue : (Sample.float Float.nan).toJson = .null := by
      rw [toJson, if_neg (Bool.eq_false_iff.mp hnan)]
    rw [toJson, jsonEntries_cons, hkey, hvalue]
    rfl
  exact ⟨hordered, hwritable, hfits, toJson_ofJson.1 bounds hordered hwritable hfits, hgrid,
    toJson_ofJson.2 grid⟩

end Sample

end Specimen
