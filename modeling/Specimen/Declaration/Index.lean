import Specimen.Declaration.Basic

/-!
# The index of declarations

Declarations by name. Of several declarations of one name the last is kept. `Index.declarations`
lists what was kept in byte order of the names, so everything computed from an index is independent
of the order of the document.
-/

namespace Specimen

/-- Declarations under their names, in byte order. -/
structure Index where
  entries : List (String × Declaration)

namespace Index

/-- The index of a list of declarations. -/
def ofList (declarations : List Declaration) : Index :=
  ⟨Entries.sortByName (declarations.map fun declaration => (declaration.name, declaration))⟩

/-- The declaration of a name. -/
def find? (index : Index) (name : String) : Option Declaration :=
  Entries.find? name index.entries

/-- The name is declared. -/
def contains (index : Index) (name : String) : Bool :=
  (index.find? name).isSome

/-- How many names are declared. -/
def size (index : Index) : Nat :=
  index.entries.length

/-- The declared names in byte order. -/
def names (index : Index) : List String :=
  Entries.names index.entries

/-- The declarations in byte order of their names. -/
def declarations (index : Index) : List Declaration :=
  index.entries.map Prod.snd

/-- The members of a name that is declared as an enumeration. -/
def enumMembers? (index : Index) (name : String) : Option (List EnumMember) :=
  match (index.find? name).map Declaration.body with
  | some (.enumeration members) => some members
  | _ => none

/-- The fields of a name that is declared as an interface. -/
def interfaceFields? (index : Index) (name : String) : Option (List Field) :=
  match (index.find? name).map Declaration.body with
  | some (.interface fields) => some fields
  | _ => none

theorem mem_names_of_find? {index : Index} {name : String} {declaration : Declaration}
    (h : index.find? name = some declaration) : name ∈ index.names := by
  obtain ⟨entries⟩ := index
  simp only [find?, names, Entries.names] at *
  induction entries with
  | nil => simp [Entries.find?] at h
  | cons entry rest ih =>
      obtain ⟨key, kept⟩ := entry
      simp only [Entries.find?] at h
      split at h
      · rename_i hkey
        simp [hkey]
      · simp [ih h]

theorem mem_names_of_interfaceFields? {index : Index} {name : String} {fields : List Field}
    (h : index.interfaceFields? name = some fields) : name ∈ index.names := by
  unfold interfaceFields? at h
  cases hfind : index.find? name with
  | none => simp [hfind] at h
  | some declaration => exact mem_names_of_find? hfind

end Index

end Specimen
