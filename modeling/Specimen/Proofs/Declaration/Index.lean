import Specimen.Declaration.Index
import Specimen.Proofs.Entries

/-!
# Names of indexed declarations

An index that is made from a list of declarations has every declaration under its own name, and its
names ascend. So it lists each declaration once, in the order of the names.
-/

namespace Specimen

/-- Every declaration is under its own name. -/
def Index.IsNamed (index : Index) : Prop :=
  ∀ name declaration, index.find? name = some declaration → declaration.name = name

theorem Entries.find?_foldl_insert {α : Type} {P : String → α → Prop}
    (entries kept : List (String × α))
    (hentries : ∀ entry ∈ entries, P entry.1 entry.2)
    (hkept : ∀ name value, find? name kept = some value → P name value) :
    ∀ name value,
      find? name (entries.foldl (fun sorted entry => insert entry.1 entry.2 sorted) kept)
        = some value → P name value := by
  induction entries generalizing kept with
  | nil => exact hkept
  | cons entry rest ih =>
      rw [List.foldl_cons]
      apply ih
      · intro other hother
        exact hentries other (List.mem_cons_of_mem _ hother)
      · intro name value hfind
        rw [find?_insert] at hfind
        split at hfind
        · rename_i hname
          cases hfind
          exact hname ▸ hentries entry List.mem_cons_self
        · exact hkept name value hfind

theorem Index.isNamed_ofList (declarations : List Declaration) :
    (Index.ofList declarations).IsNamed := by
  intro name declaration hfind
  refine Entries.find?_foldl_insert (P := fun name declaration => declaration.name = name)
    _ [] ?_ ?_ name declaration hfind
  · intro entry hentry
    obtain ⟨declaration, -, rfl⟩ := List.mem_map.mp hentry
    rfl
  · intro name declaration hfind
    cases hfind

theorem Index.ascending_ofList (declarations : List Declaration) :
    Ascending (Index.ofList declarations).names :=
  Entries.ascending_sortByName _

theorem Index.contains_iff {index : Index} {name : String} :
    index.contains name = true ↔ name ∈ index.names :=
  Entries.isSome_find?_iff

theorem Index.interfaceFields?_eq_some_iff {index : Index} {name : String} {fields : List Field} :
    index.interfaceFields? name = some fields
      ↔ ∃ declaration, index.find? name = some declaration
          ∧ declaration.body = .interface fields := by
  rw [← Option.map_eq_some_iff, interfaceFields?]
  split
  · rename_i hbody
    simp [hbody]
  · rename_i hother
    exact ⟨nofun, fun hbody => absurd hbody (hother fields)⟩

theorem Index.enumMembers?_eq_some_iff {index : Index} {name : String}
    {members : List EnumMember} :
    index.enumMembers? name = some members
      ↔ ∃ declaration, index.find? name = some declaration
          ∧ declaration.body = .enumeration members := by
  rw [← Option.map_eq_some_iff, enumMembers?]
  split
  · rename_i hbody
    simp [hbody]
  · rename_i hother
    exact ⟨nofun, fun hbody => absurd hbody (hother members)⟩

namespace Index

variable {index : Index} (hnamed : index.IsNamed) (hnodup : index.names.Nodup)
include hnamed hnodup

theorem mem_declarations_iff {declaration : Declaration} :
    declaration ∈ index.declarations ↔ index.find? declaration.name = some declaration := by
  have hfind (name : String) : index.find? name = some declaration
      ↔ (name, declaration) ∈ index.entries := Entries.find?_eq_some_iff_mem hnodup
  simp only [declarations, List.mem_map, Prod.exists, exists_eq_right]
  constructor
  · rintro ⟨name, hmem⟩
    have hname := (hfind name).mpr hmem
    rwa [hnamed name declaration hname]
  · intro h
    exact ⟨declaration.name, (hfind _).mp h⟩

theorem map_name_declarations : index.declarations.map Declaration.name = index.names := by
  rw [declarations, names, Entries.names, List.map_map]
  apply List.map_congr_left
  rintro ⟨name, declaration⟩ hentry
  exact hnamed name declaration ((Entries.find?_eq_some_iff_mem hnodup).mpr hentry)

end Index

end Specimen
