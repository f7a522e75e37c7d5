import Specimen.Proofs.Entries
import Specimen.Proofs.Json.Text

/-!
# The order of JSON trees

In a tree that is read from a text, the names of every object ascend, and its numbers have a text:
`Json.Ordered` and `Json.Writable` (`of_readWithin?`). The compact text tells any two trees apart
whose numbers have a text (`compact_injective`); the proof reads them with numerals rounded once,
which loses none of them.
-/

namespace Specimen.Json

/-- The names of every object ascend. -/
inductive Ordered : Json → Prop
  | null : Ordered .null
  | bool (value : Bool) : Ordered (.bool value)
  | integer (value : Int) : Ordered (.integer value)
  | double (value : Float) : Ordered (.double value)
  | string (value : String) : Ordered (.string value)
  | array {items : List Json} (hitems : ∀ item ∈ items, Ordered item) : Ordered (.array items)
  | object {entries : List (String × Json)} (hnames : Ascending (Entries.names entries))
      (hentries : ∀ entry ∈ entries, Ordered entry.2) : Ordered (.object entries)

section Objects

variable {items : List Json} {entries : List (String × Json)}

@[simp] theorem ordered_array_iff :
    Ordered (.array items) ↔ ∀ item ∈ items, Ordered item :=
  ⟨fun h => by cases h; assumption, .array⟩

@[simp] theorem ordered_object_iff : Ordered (.object entries)
    ↔ Ascending (Entries.names entries) ∧ ∀ entry ∈ entries, Ordered entry.2 :=
  ⟨fun h => by cases h; constructor <;> assumption, fun h => .object h.1 h.2⟩

/-- The first name of an object in order comes before all others. -/
theorem ordered_cons {name : String} {value : Json}
    (h : Ordered (.object ((name, value) :: entries))) :
    value.Ordered ∧ (∀ entry ∈ entries, namePrecedes name entry.1 = true)
      ∧ Ordered (.object entries) := by
  obtain ⟨hnames, hentries⟩ := ordered_object_iff.mp h
  obtain ⟨hfirst, hrest⟩ := List.pairwise_cons.mp hnames
  obtain ⟨hvalue, hothers⟩ := List.forall_mem_cons.mp hentries
  exact ⟨hvalue, fun entry hentry => hfirst _ (List.mem_map_of_mem hentry), .object hrest hothers⟩

/-- Objects are put into order as a whole. -/
theorem ordered_ofEntries (h : ∀ entry ∈ entries, Ordered entry.2) : Ordered (ofEntries entries) :=
  .object (Entries.ascending_sortByName entries) fun entry hentry =>
    h entry (Entries.mem_of_mem_sortByName hentry)

theorem writable_ofEntries (h : ∀ entry ∈ entries, Writable entry.2) :
    Writable (ofEntries entries) :=
  .object fun entry hentry => h entry (Entries.mem_of_mem_sortByName hentry)

/-- An object in order is the object of its entries. -/
theorem ofEntries_of_ascending (h : Ascending (Entries.names entries)) :
    ofEntries entries = .object entries := by
  rw [ofEntries, Entries.sortByName_of_ascending h]

end Objects

/-! ## Sorting a tree -/

theorem sortedItems_eq_map (items : List Json) : sortedItems items = items.map sorted := by
  induction items with
  | nil => rfl
  | cons item items ih => rw [sortedItems, ih, List.map_cons]

theorem sortedEntries_eq_map (entries : List (String × Json)) :
    sortedEntries entries = entries.map fun entry => (entry.1, entry.2.sorted) := by
  induction entries with
  | nil => rfl
  | cons entry entries ih => rw [sortedEntries, ih, List.map_cons, sortedEntry]

/-- A tree in order stays as it is. -/
theorem sorted_of_ordered {json : Json} (h : json.Ordered) : json.sorted = json := by
  induction h with
  | array hitems ih =>
      rw [sorted, sortedItems_eq_map, List.map_congr_left ih, List.map_id']
  | @object entries hnames hentries ih =>
      have heach : entries.map (fun entry => (entry.1, entry.2.sorted)) = entries := by
        refine (List.map_congr_left fun entry hentry => ?_).trans (List.map_id entries)
        exact Prod.ext rfl (ih entry hentry)
      rw [sorted, sortedEntries_eq_map, heach, ofEntries_of_ascending hnames]
  | _ => rfl

mutual

/-- A tree that has been sorted is in order, and its numbers are still those of the tree. -/
theorem ordered_sorted :
    (json : Json) → json.sorted.Ordered ∧ (json.Writable → json.sorted.Writable)
  | .null => ⟨.null, id⟩
  | .bool value => ⟨.bool value, id⟩
  | .integer value => ⟨.integer value, id⟩
  | .double value => ⟨.double value, id⟩
  | .string value => ⟨.string value, id⟩
  | .array items => by
      have hitems := ordered_sortedItems items
      rw [sorted, sortedItems_eq_map]
      refine ⟨.array ?_, fun h => .array ?_⟩
      · exact List.forall_mem_map.mpr fun item hitem => (hitems item hitem).1
      · exact List.forall_mem_map.mpr fun item hitem =>
          (hitems item hitem).2 (writable_array_iff.mp h item hitem)
  | .object entries => by
      have hentries := ordered_sortedEntries entries
      rw [sorted, sortedEntries_eq_map]
      refine ⟨ordered_ofEntries ?_, fun h => writable_ofEntries ?_⟩
      · exact List.forall_mem_map.mpr fun entry hentry => (hentries entry hentry).1
      · exact List.forall_mem_map.mpr fun entry hentry =>
          (hentries entry hentry).2 (writable_object_iff.mp h entry hentry)
termination_by structural json => json

/-- The same for items. -/
theorem ordered_sortedItems : (items : List Json) →
    ∀ item ∈ items, item.sorted.Ordered ∧ (item.Writable → item.sorted.Writable)
  | [] => by simp
  | item :: items => List.forall_mem_cons.mpr ⟨ordered_sorted item, ordered_sortedItems items⟩
termination_by structural items => items

/-- The same for the values of entries. -/
theorem ordered_sortedEntries : (entries : List (String × Json)) →
    ∀ entry ∈ entries, entry.2.sorted.Ordered ∧ (entry.2.Writable → entry.2.sorted.Writable)
  | [] => by simp
  | entry :: entries =>
      List.forall_mem_cons.mpr ⟨ordered_sortedEntry entry, ordered_sortedEntries entries⟩
termination_by structural entries => entries

/-- The same for the value of an entry. -/
theorem ordered_sortedEntry : (entry : String × Json) →
    entry.2.sorted.Ordered ∧ (entry.2.Writable → entry.2.sorted.Writable)
  | (_, value) => ordered_sorted value
termination_by structural entry => entry

end

/-! ## Trees and texts -/

/-- A tree that is read from a text is in order, and its numbers have a text. -/
theorem of_readWithin? {limit : Nat} {text : String} {json : Json}
    (h : readWithin? limit text = some json) : json.Ordered ∧ json.Writable := by
  obtain ⟨written, -, htree⟩ := Option.bind_eq_some_iff.mp h
  obtain ⟨tree, hjson, rfl⟩ := Option.map_eq_some_iff.mp htree
  obtain ⟨hordered, hwritable⟩ := ordered_sorted tree
  exact ⟨hordered, hwritable (writable_of_toJson? written hjson).1⟩

/-- Different trees have different texts. -/
theorem compact_injective {first second : Json} (hfirst : first.Writable)
    (hsecond : second.Writable) (h : first.compact = second.compact) : first = second := by
  obtain ⟨written, hread, hspelled⟩ := exists_written?_compact hfirst.legible
  obtain ⟨written', hread', hspelled'⟩ := exists_written?_compact hsecond.legible
  rw [h, hread'] at hread
  obtain rfl := Option.some.inj hread
  have htree := hspelled.toJson? (max first.levels second.levels) (Nat.le_max_left _ _)
  have htree' := hspelled'.toJson? (max first.levels second.levels) (Nat.le_max_right _ _)
  exact Option.some.inj (htree.symm.trans htree')

end Specimen.Json
