import Specimen.Json.Reader
import Specimen.Json.Text
import Specimen.Proofs.Binary64.Nearest

/-!
# Nesting and numbers of JSON trees

`Json.levels` counts how deep arrays and objects stand inside each other. `Json.Writable` holds of
the trees whose numbers all have a text: integers in range and finite doubles. What is made of a
written value has both properties, with the levels that were allowed: `writable_of_toJson?`.

Which of its doubles are read back from their texts depends on how numerals are rounded.
`Json.Legible` holds of the trees all of whose doubles are.
-/

namespace Specimen.Json

open Decimal (Numeral)

/-! ## Levels -/

mutual

/-- How many arrays and objects of a tree stand inside each other. -/
def levels : Json → Nat
  | .array items => itemsLevels items + 1
  | .object entries => entriesLevels entries + 1
  | _ => 0
termination_by structural j => j

/-- The same for the deepest of some items. -/
def itemsLevels : List Json → Nat
  | [] => 0
  | item :: items => max item.levels (itemsLevels items)
termination_by structural items => items

/-- The same for the deepest value of some entries. -/
def entriesLevels : List (String × Json) → Nat
  | [] => 0
  | (_, value) :: entries => max value.levels (entriesLevels entries)
termination_by structural entries => entries

end

theorem itemsLevels_le_iff {items : List Json} {n : Nat} :
    itemsLevels items ≤ n ↔ ∀ item ∈ items, item.levels ≤ n := by
  induction items with
  | nil => simp [itemsLevels]
  | cons item items ih => simp [itemsLevels, ih]

theorem entriesLevels_le_iff {entries : List (String × Json)} {n : Nat} :
    entriesLevels entries ≤ n ↔ ∀ entry ∈ entries, entry.2.levels ≤ n := by
  induction entries with
  | nil => simp [entriesLevels]
  | cons entry entries ih => simp [entriesLevels, ih]

theorem levels_array_le_iff {items : List Json} {n : Nat} :
    (Json.array items).levels ≤ n + 1 ↔ ∀ item ∈ items, item.levels ≤ n := by
  simp [levels, itemsLevels_le_iff]

theorem levels_object_le_iff {entries : List (String × Json)} {n : Nat} :
    (Json.object entries).levels ≤ n + 1 ↔ ∀ entry ∈ entries, entry.2.levels ≤ n := by
  simp [levels, entriesLevels_le_iff]

/-- An item has fewer levels than its array. -/
theorem levels_lt_of_mem_array {item : Json} {items : List Json} (h : item ∈ items) :
    item.levels < (Json.array items).levels :=
  Nat.lt_succ_of_le (itemsLevels_le_iff.mp (Nat.le_refl _) item h)

/-- The value of an entry has fewer levels than the object. -/
theorem levels_lt_of_mem_object {entry : String × Json} {entries : List (String × Json)}
    (h : entry ∈ entries) : entry.2.levels < (Json.object entries).levels :=
  Nat.lt_succ_of_le (entriesLevels_le_iff.mp (Nat.le_refl _) entry h)

/-! ## Numbers -/

/-- All numbers of a tree have a text. -/
inductive Writable : Json → Prop
  | null : Writable .null
  | bool (value : Bool) : Writable (.bool value)
  | integer {value : Int} (hleast : leastInteger ≤ value) (hgreatest : value ≤ greatestInteger) :
      Writable (.integer value)
  | double {value : Float} (hfinite : value.isFinite = true) : Writable (.double value)
  | string (value : String) : Writable (.string value)
  | array {items : List Json} (hitems : ∀ item ∈ items, Writable item) : Writable (.array items)
  | object {entries : List (String × Json)} (hentries : ∀ entry ∈ entries, Writable entry.2) :
      Writable (.object entries)

section Writable

variable {number : Float} {items : List Json} {entries : List (String × Json)}

@[simp] theorem writable_null : Writable .null :=
  .null

@[simp] theorem writable_bool (value : Bool) : Writable (.bool value) :=
  .bool value

@[simp] theorem writable_string (value : String) : Writable (.string value) :=
  .string value

@[simp] theorem writable_double_iff : Writable (.double number) ↔ number.isFinite = true :=
  ⟨fun h => by cases h; assumption, .double⟩

@[simp] theorem writable_array_iff : Writable (.array items) ↔ ∀ item ∈ items, Writable item :=
  ⟨fun h => by cases h; assumption, .array⟩

@[simp] theorem writable_object_iff :
    Writable (.object entries) ↔ ∀ entry ∈ entries, Writable entry.2 :=
  ⟨fun h => by cases h; assumption, .object⟩

end Writable

/-- The text of a double is a numeral that stands for it. -/
def Reproduces (toDouble : Numeral → Float) (x : Float) : Prop :=
  (numeral? (Decimal.floatChars x)).map toDouble = some x

instance (toDouble : Numeral → Float) (x : Float) : Decidable (Reproduces toDouble x) :=
  inferInstanceAs (Decidable (_ = _))

/-- All numbers of a tree have a text that stands for the number. -/
inductive Legible (toDouble : Numeral → Float) : Json → Prop
  | null : Legible toDouble .null
  | bool (value : Bool) : Legible toDouble (.bool value)
  | integer {value : Int} (hleast : leastInteger ≤ value) (hgreatest : value ≤ greatestInteger) :
      Legible toDouble (.integer value)
  | double {value : Float} (hfinite : value.isFinite = true) (hvalue : Reproduces toDouble value) :
      Legible toDouble (.double value)
  | string (value : String) : Legible toDouble (.string value)
  | array {items : List Json} (hitems : ∀ item ∈ items, Legible toDouble item) :
      Legible toDouble (.array items)
  | object {entries : List (String × Json)}
      (hentries : ∀ entry ∈ entries, Legible toDouble entry.2) :
      Legible toDouble (.object entries)

section Legible

variable {toDouble : Numeral → Float} {number : Float} {items : List Json}
  {entries : List (String × Json)}

@[simp] theorem legible_null : Legible toDouble .null :=
  .null

@[simp] theorem legible_bool (value : Bool) : Legible toDouble (.bool value) :=
  .bool value

@[simp] theorem legible_string (value : String) : Legible toDouble (.string value) :=
  .string value

@[simp] theorem legible_double_iff :
    Legible toDouble (.double number) ↔ number.isFinite = true ∧ Reproduces toDouble number :=
  ⟨fun h => by cases h; constructor <;> assumption, fun h => .double h.1 h.2⟩

@[simp] theorem legible_array_iff :
    Legible toDouble (.array items) ↔ ∀ item ∈ items, Legible toDouble item :=
  ⟨fun h => by cases h; assumption, .array⟩

@[simp] theorem legible_object_iff :
    Legible toDouble (.object entries) ↔ ∀ entry ∈ entries, Legible toDouble entry.2 :=
  ⟨fun h => by cases h; assumption, .object⟩

end Legible

/-- A number of such a tree is finite as a double. -/
theorem Writable.isFinite_of_number? {json : Json} {value : Float} (h : json.Writable)
    (hvalue : json.number? = some value) : value.isFinite = true := by
  cases h with
  | integer hleast hgreatest =>
      cases hvalue
      refine Binary64.isFinite_ofInt ?_
      have hbound : leastInteger = -9223372036854775808 := by decide
      rw [hbound] at hleast
      unfold greatestInteger at hgreatest
      omega
  | double hfinite =>
      cases hvalue
      exact hfinite
  | _ => cases hvalue

/-! ## Trees that are written -/

section Trees

variable {toDouble : Numeral → Float}

theorem writable_of_ofNumeral? {n : Numeral} {json : Json}
    (h : ofNumeral? toDouble n = some json) : json.Writable ∧ json.levels = 0 := by
  have hdouble : (if (toDouble n).isFinite = true then some (Json.double (toDouble n)) else none)
      = some json → json.Writable ∧ json.levels = 0 := by
    intro h
    split at h
    · rename_i hfinite
      cases h
      exact ⟨.double hfinite, rfl⟩
    · cases h
  have hbounds : leastInteger ≤ 0 ∧ 0 ≤ greatestInteger := by decide
  unfold ofNumeral? at h
  cases hnegative : n.negative with
  | true =>
      simp only [hnegative, if_true, Bool.and_eq_true, decide_eq_true_eq] at h
      split at h
      · rename_i hinteger
        cases h
        exact ⟨.integer hinteger.2.2 (by omega), rfl⟩
      · exact hdouble h
  | false =>
      simp only [hnegative, Bool.false_eq_true, if_false, Bool.and_eq_true, decide_eq_true_eq] at h
      split at h
      · rename_i hinteger
        cases h
        exact ⟨.integer (by omega) hinteger.2, rfl⟩
      · exact hdouble h

mutual

/-- The tree of a written value has at most the levels that are allowed, and all its numbers have a
text. -/
theorem writable_of_toJson? : (written : Written) → ∀ {n : Nat} {json : Json},
    written.toJson? toDouble n = some json → json.Writable ∧ json.levels ≤ n
  | .null, n, json, h => by
      cases h
      exact ⟨.null, Nat.zero_le n⟩
  | .bool value, n, json, h => by
      cases h
      exact ⟨.bool value, Nat.zero_le n⟩
  | .number numeral, n, json, h => by
      obtain ⟨hwritable, hlevels⟩ := writable_of_ofNumeral? h
      exact ⟨hwritable, hlevels ▸ Nat.zero_le n⟩
  | .string parts, n, json, h => by
      obtain ⟨text, -, rfl⟩ := Option.map_eq_some_iff.mp h
      exact ⟨.string _, Nat.zero_le n⟩
  | .array items, 0, json, h => by cases h
  | .array items, n + 1, json, h => by
      obtain ⟨trees, htrees, rfl⟩ := Option.map_eq_some_iff.mp h
      have hitems := writable_of_itemsToJson? items htrees
      exact ⟨.array fun item hitem => (hitems item hitem).1,
        levels_array_le_iff.mpr fun item hitem => (hitems item hitem).2⟩
  | .object entries, 0, json, h => by cases h
  | .object entries, n + 1, json, h => by
      obtain ⟨trees, htrees, rfl⟩ := Option.map_eq_some_iff.mp h
      have hentries := writable_of_entriesToJson? entries htrees
      exact ⟨.object fun entry hentry => (hentries entry hentry).1,
        levels_object_le_iff.mpr fun entry hentry => (hentries entry hentry).2⟩
termination_by structural written => written

/-- The same for items. -/
theorem writable_of_itemsToJson? : (items : List Written) → ∀ {n : Nat} {trees : List Json},
    Written.itemsToJson? toDouble items n = some trees →
    ∀ item ∈ trees, item.Writable ∧ item.levels ≤ n
  | [], n, trees, h => by
      cases h
      simp
  | item :: items, n, trees, h => by
      simp only [Written.itemsToJson?] at h
      split at h
      · cases h
      · rename_i tree htree
        obtain ⟨more, hmore, rfl⟩ := Option.map_eq_some_iff.mp h
        exact List.forall_mem_cons.mpr
          ⟨writable_of_toJson? item htree, writable_of_itemsToJson? items hmore⟩
termination_by structural items => items

/-- The same for the values of entries. -/
theorem writable_of_entriesToJson? : (entries : List (List StringPart × Written)) →
    ∀ {n : Nat} {trees : List (String × Json)},
    Written.entriesToJson? toDouble entries n = some trees →
    ∀ entry ∈ trees, entry.2.Writable ∧ entry.2.levels ≤ n
  | [], n, trees, h => by
      cases h
      simp
  | entry :: entries, n, trees, h => by
      simp only [Written.entriesToJson?] at h
      split at h
      · cases h
      · rename_i tree htree
        obtain ⟨more, hmore, rfl⟩ := Option.map_eq_some_iff.mp h
        exact List.forall_mem_cons.mpr
          ⟨writable_of_entryToJson? entry htree, writable_of_entriesToJson? entries hmore⟩
termination_by structural entries => entries

/-- The same for the value of an entry. -/
theorem writable_of_entryToJson? : (entry : List StringPart × Written) →
    ∀ {n : Nat} {tree : String × Json}, Written.entryToJson? toDouble entry n = some tree →
    tree.2.Writable ∧ tree.2.levels ≤ n
  | (name, value), n, tree, h => by
      simp only [Written.entryToJson?] at h
      split at h
      · rename_i text tree' htext htree
        cases h
        exact writable_of_toJson? value htree
      · cases h
termination_by structural entry => entry

end

end Trees

/-! ## What is written for arrays and objects -/

namespace Written

variable {toDouble : Numeral → Float}

/-- Only a written array stands for an array. -/
theorem array_of_toJson? {written : Written} {n : Nat} {trees : List Json}
    (h : written.toJson? toDouble n = some (.array trees)) :
    ∃ items m, written = .array items ∧ itemsToJson? toDouble items m = some trees := by
  match written, n with
  | .array items, n + 1 =>
      obtain ⟨trees', htrees, heq⟩ := Option.map_eq_some_iff.mp h
      cases heq
      exact ⟨items, n, rfl, htrees⟩
  | .array items, 0 => cases h
  | .null, _ => cases h
  | .bool _, _ => cases h
  | .number numeral, _ => exact absurd (writable_of_ofNumeral? h).2 (Nat.succ_ne_zero _)
  | .string parts, _ =>
      obtain ⟨text, -, heq⟩ := Option.map_eq_some_iff.mp h
      cases heq
  | .object parts, 0 => cases h
  | .object parts, n + 1 =>
      obtain ⟨entries, -, heq⟩ := Option.map_eq_some_iff.mp h
      cases heq

/-- Every item stands for one of the trees. -/
theorem exists_mem_of_itemsToJson? {items : List Written} {n : Nat} {trees : List Json}
    (h : itemsToJson? toDouble items n = some trees) :
    ∀ item ∈ items, ∃ tree ∈ trees, item.toJson? toDouble n = some tree := by
  induction items generalizing trees with
  | nil => simp
  | cons item items ih =>
      simp only [itemsToJson?] at h
      split at h
      · cases h
      · rename_i tree htree
        obtain ⟨more, hmore, rfl⟩ := Option.map_eq_some_iff.mp h
        refine List.forall_mem_cons.mpr ⟨⟨tree, List.mem_cons_self, htree⟩, fun other hother => ?_⟩
        obtain ⟨tree', hmem, htree'⟩ := ih hmore other hother
        exact ⟨tree', List.mem_cons_of_mem _ hmem, htree'⟩

/-- Every name decodes to one of the names. -/
theorem exists_mem_of_entriesToJson? {parts : List (List StringPart × Written)} {n : Nat}
    {entries : List (String × Json)} (h : entriesToJson? toDouble parts n = some entries) :
    ∀ part ∈ parts, ∃ name, decode? part.1 = some name
      ∧ String.ofList name ∈ Entries.names entries := by
  induction parts generalizing entries with
  | nil => simp
  | cons part parts ih =>
      obtain ⟨name, value⟩ := part
      simp only [entriesToJson?, entryToJson?] at h
      split at h
      · cases h
      · rename_i entry hentry
        split at hentry
        · rename_i text tree htext htree
          cases hentry
          obtain ⟨more, hmore, rfl⟩ := Option.map_eq_some_iff.mp h
          refine List.forall_mem_cons.mpr
            ⟨⟨text, htext, List.mem_cons_self⟩, fun other hother => ?_⟩
          obtain ⟨text', htext', hmem⟩ := ih hmore other hother
          exact ⟨text', htext', List.mem_cons_of_mem _ hmem⟩
        · cases hentry

end Written

end Specimen.Json
