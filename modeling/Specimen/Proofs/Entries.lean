import Mathlib.Data.List.Pairwise
import Mathlib.Data.List.Perm.Subperm
import Specimen.Entries

/-!
# The order of named entries

`namePrecedes` is a strict linear order, and `Entries.insert` keeps names in that order. So the
names of a list that is sorted by name ascend, none occurs twice, and a look-up finds the only entry
of its name (`Entries.find?_eq_some_iff_mem`).
-/

namespace Specimen

/-! ## The order of names -/

theorem nameBytes_injective {a b : String} (h : nameBytes a = nameBytes b) : a = b := by
  rw [← String.toByteArray_inj]
  exact ByteArray.ext (Array.ext' h)

theorem namePrecedes_irrefl (a : String) : namePrecedes a a = false := by
  simp [namePrecedes]

theorem namePrecedes_trans {a b c : String} (hab : namePrecedes a b = true)
    (hbc : namePrecedes b c = true) : namePrecedes a c = true := by
  simp only [namePrecedes, decide_eq_true_eq] at *
  exact List.lt_trans hab hbc

theorem ne_of_namePrecedes {a b : String} (h : namePrecedes a b = true) : a ≠ b := by
  rintro rfl
  rw [namePrecedes_irrefl] at h
  cases h

/-- Of two different names one comes first. -/
theorem namePrecedes_of_not {a b : String} (hne : a ≠ b) (h : ¬ namePrecedes a b = true) :
    namePrecedes b a = true := by
  simp only [namePrecedes, decide_eq_true_eq, List.not_lt] at *
  apply List.not_le.mp
  intro hle
  exact hne (nameBytes_injective (List.le_antisymm hle h))

/-- The names stand in strictly ascending order. -/
def Ascending (names : List String) : Prop :=
  names.Pairwise fun a b => namePrecedes a b = true

theorem Ascending.nodup {names : List String} (h : Ascending names) : names.Nodup :=
  h.imp ne_of_namePrecedes

namespace Entries

variable {α : Type}

/-! ## Insertion -/

theorem mem_names_insert {name other : String} {value : α} {entries : List (String × α)} :
    other ∈ names (insert name value entries) ↔ other = name ∨ other ∈ names entries := by
  induction entries with
  | nil => simp [insert, names]
  | cons entry rest ih =>
      obtain ⟨key, kept⟩ := entry
      simp only [names, List.map_cons, List.mem_cons] at ih ⊢
      simp only [insert]
      split
      · rename_i hkey
        simp [hkey]
      · split
        · simp
        · simp only [List.map_cons, List.mem_cons, ih]
          exact or_left_comm

theorem ascending_insert {name : String} {value : α} {entries : List (String × α)}
    (h : Ascending (names entries)) : Ascending (names (insert name value entries)) := by
  induction entries with
  | nil => exact List.pairwise_singleton _ _
  | cons entry rest ih =>
      obtain ⟨key, kept⟩ := entry
      obtain ⟨hfirst, hrest⟩ := List.pairwise_cons.mp h
      simp only [insert]
      split
      · rename_i hkey
        exact hkey ▸ h
      · rename_i hkey
        split
        · rename_i hbefore
          refine List.pairwise_cons.mpr ⟨?_, h⟩
          intro other hother
          rcases List.mem_cons.mp hother with rfl | hother
          · exact hbefore
          · exact namePrecedes_trans hbefore (hfirst other hother)
        · rename_i hbefore
          refine List.pairwise_cons.mpr ⟨?_, ih hrest⟩
          intro other hother
          rcases mem_names_insert.mp hother with rfl | hother
          · exact namePrecedes_of_not (Ne.symm hkey) hbefore
          · exact hfirst other hother

theorem ascending_sortByName (entries : List (String × α)) :
    Ascending (names (sortByName entries)) := by
  suffices h : ∀ sorted : List (String × α), Ascending (names sorted) → Ascending (names
      (entries.foldl (fun sorted entry => insert entry.1 entry.2 sorted) sorted)) from
    h [] List.Pairwise.nil
  induction entries with
  | nil => exact fun _ h => h
  | cons entry rest ih => exact fun _ h => ih _ (ascending_insert h)

/-- A new name is put in among the others. -/
theorem perm_insert {name : String} (value : α) {entries : List (String × α)}
    (h : name ∉ names entries) : (insert name value entries).Perm ((name, value) :: entries) := by
  induction entries with
  | nil => exact .refl _
  | cons entry rest ih =>
      obtain ⟨key, kept⟩ := entry
      obtain ⟨hkey, hrest⟩ := not_or.mp (List.mem_cons.not.mp h)
      rw [insert, if_neg (Ne.symm hkey)]
      split
      · exact .refl _
      · exact ((ih hrest).cons _).trans (.swap _ _ _)

/-- If no name occurs twice, sorting loses no entry. -/
theorem perm_sortByName {entries : List (String × α)} (h : (names entries).Nodup) :
    (sortByName entries).Perm entries := by
  suffices hfold : ∀ sorted : List (String × α), (names (sorted ++ entries)).Nodup →
      (entries.foldl (fun sorted entry => insert entry.1 entry.2 sorted) sorted).Perm
        (sorted ++ entries) from hfold [] h
  clear h
  induction entries with
  | nil => simp
  | cons entry rest ih =>
      intro sorted hsorted
      have hmiddle : (sorted ++ entry :: rest).Perm (entry :: sorted ++ rest) := List.perm_middle
      have hnodup : (names (entry :: sorted ++ rest)).Nodup :=
        (hmiddle.map Prod.fst).nodup_iff.mp hsorted
      have hnew : entry.1 ∉ names sorted := fun hmem => by
        rw [names, List.cons_append, List.map_cons, List.map_append] at hnodup
        exact (List.nodup_cons.mp hnodup).1 (List.mem_append_left _ hmem)
      have hinsert := (perm_insert entry.2 hnew).append_right rest
      rw [List.foldl_cons]
      refine (ih _ ?_).trans (hinsert.trans hmiddle.symm)
      exact (hinsert.map Prod.fst).nodup_iff.mpr hnodup

/-- Entries in order are determined by what they are. -/
theorem eq_of_perm_of_ascending {entries others : List (String × α)}
    (h : Ascending (names entries)) (hothers : Ascending (names others))
    (hperm : entries.Perm others) : entries = others := by
  refine List.Perm.eq_of_pairwise ?_ (List.pairwise_map.mp h) (List.pairwise_map.mp hothers) hperm
  intro first second _ _ hbefore hbehind
  have hloop := namePrecedes_trans hbefore hbehind
  rw [namePrecedes_irrefl] at hloop
  cases hloop

/-- Entries that are in order stay as they are. -/
theorem sortByName_of_ascending {entries : List (String × α)} (h : Ascending (names entries)) :
    sortByName entries = entries :=
  eq_of_perm_of_ascending (ascending_sortByName entries) h (perm_sortByName h.nodup)

theorem mem_of_mem_insert {name : String} {value : α} {entries : List (String × α)}
    {entry : String × α} (h : entry ∈ insert name value entries) :
    entry = (name, value) ∨ entry ∈ entries := by
  induction entries with
  | nil => exact .inl (List.mem_singleton.mp h)
  | cons first rest ih =>
      obtain ⟨key, kept⟩ := first
      rw [insert] at h
      split at h
      · exact (List.mem_cons.mp h).imp_right (List.mem_cons_of_mem _)
      · split at h
        · exact List.mem_cons.mp h
        · rcases List.mem_cons.mp h with rfl | h
          · exact .inr List.mem_cons_self
          · exact (ih h).imp_right (List.mem_cons_of_mem _)

/-- Sorting makes no new entries. -/
theorem mem_of_mem_sortByName {entries : List (String × α)} {entry : String × α}
    (h : entry ∈ sortByName entries) : entry ∈ entries := by
  suffices hfold : ∀ sorted : List (String × α),
      entry ∈ entries.foldl (fun sorted entry => insert entry.1 entry.2 sorted) sorted →
      entry ∈ sorted ∨ entry ∈ entries from (hfold [] h).resolve_left List.not_mem_nil
  clear h
  induction entries with
  | nil => exact fun _ h => .inl h
  | cons first rest ih =>
      intro sorted h
      rcases ih _ h with h | h
      · rcases mem_of_mem_insert h with rfl | h
        · exact .inr List.mem_cons_self
        · exact .inl h
      · exact .inr (List.mem_cons_of_mem _ h)

/-- Sorting loses an entry if a name occurs twice. -/
theorem length_sortByName_lt {entries : List (String × α)} (h : ¬(names entries).Nodup) :
    (sortByName entries).length < entries.length := by
  have hnodup := (ascending_sortByName entries).nodup
  have hsubset : names (sortByName entries) ⊆ names entries := by
    intro name hname
    obtain ⟨entry, hentry, rfl⟩ := List.mem_map.mp hname
    exact List.mem_map_of_mem (mem_of_mem_sortByName hentry)
  by_contra hle
  have hperm := (List.subperm_of_subset hnodup hsubset).perm_of_length_le
    (by simpa [names] using Nat.not_lt.mp hle)
  exact h (hperm.nodup_iff.mp hnodup)

theorem names_set (name : String) (value : α) (entries : List (String × α)) :
    names (set name value entries)
      = if name ∈ names entries then names entries else names entries ++ [name] := by
  induction entries with
  | nil => simp [names, set]
  | cons entry rest ih =>
      obtain ⟨key, kept⟩ := entry
      simp only [names, List.map_cons, List.mem_cons] at ih ⊢
      by_cases hkey : key = name
      · simp [set, hkey]
      · simp only [set, hkey, Ne.symm hkey, if_false, List.map_cons, ih, false_or]
        by_cases hmem : name ∈ rest.map Prod.fst <;> simp [hmem]

/-! ## Look-up -/

theorem mem_of_find? {name : String} {value : α} {entries : List (String × α)}
    (h : find? name entries = some value) : (name, value) ∈ entries := by
  induction entries with
  | nil => cases h
  | cons entry rest ih =>
      obtain ⟨key, kept⟩ := entry
      simp only [find?] at h
      split at h
      · rename_i hkey
        cases h
        exact hkey ▸ List.mem_cons_self
      · exact List.mem_cons_of_mem _ (ih h)

theorem find?_eq_some_iff_mem {name : String} {value : α} {entries : List (String × α)}
    (hnodup : (names entries).Nodup) :
    find? name entries = some value ↔ (name, value) ∈ entries := by
  refine ⟨mem_of_find?, ?_⟩
  induction entries with
  | nil => simp
  | cons entry rest ih =>
      obtain ⟨key, kept⟩ := entry
      obtain ⟨hkey, hrest⟩ := List.nodup_cons.mp hnodup
      intro h
      simp only [find?]
      rcases List.mem_cons.mp h with heq | h
      · cases heq
        rw [if_pos rfl]
      · rw [if_neg, ih hrest h]
        rintro rfl
        exact hkey (List.mem_map.mpr ⟨_, h, rfl⟩)

theorem isSome_find?_iff {name : String} {entries : List (String × α)} :
    (find? name entries).isSome ↔ name ∈ names entries := by
  induction entries with
  | nil => simp [find?, names]
  | cons entry rest ih =>
      obtain ⟨key, kept⟩ := entry
      simp only [names, List.map_cons, List.mem_cons] at ih ⊢
      simp only [find?]
      split
      · rename_i hkey
        simp [hkey]
      · rename_i hkey
        simp [ih, Ne.symm hkey]

end Entries

end Specimen
