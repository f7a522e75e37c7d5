import Mathlib.Data.Finset.Card
import Specimen.Proofs.Declaration.Index

/-!
# The index of a list

An index answers every question as the list does from which it is made, where the last declaration
of a name counts (`lastNamed?`). It lists each declaration that it keeps once, in byte order of
the names. So the order of the list does not matter, as long as declarations of one name keep
theirs, nor does the order in which the kept declarations are sorted (`Index.Answers`). Main
statement: `Index.ofList_answers`.
-/

namespace Specimen

namespace Entries

variable {α : Type}

/-- The value of the last entry under `name`. -/
def last? (name : String) (entries : List (String × α)) : Option α :=
  (entries.filter fun entry => entry.1 == name).getLast?.map Prod.snd

theorem last?_concat (name : String) (entries : List (String × α)) (entry : String × α) :
    last? name (entries ++ [entry])
      = if entry.1 = name then some entry.2 else last? name entries := by
  by_cases hname : entry.1 = name
  · simp [last?, List.filter_append, hname]
  · simp [last?, List.filter_append, hname]

theorem sortByName_concat (entries : List (String × α)) (entry : String × α) :
    sortByName (entries ++ [entry]) = insert entry.1 entry.2 (sortByName entries) := by
  simp [sortByName]

/-- A look-up among sorted entries finds the last value of the name. -/
theorem find?_sortByName (name : String) (entries : List (String × α)) :
    find? name (sortByName entries) = last? name entries := by
  induction entries using List.reverseRecOn with
  | nil => rfl
  | append_singleton entries entry ih => rw [sortByName_concat, find?_insert, ih, last?_concat]

theorem mem_names_sortByName {name : String} {entries : List (String × α)} :
    name ∈ names (sortByName entries) ↔ name ∈ names entries := by
  induction entries using List.reverseRecOn with
  | nil => exact Iff.rfl
  | append_singleton entries entry ih =>
      rw [sortByName_concat, mem_names_insert, ih]
      simp [names, or_comm]

/-- Entries in order are determined by what look-ups find among them. -/
theorem eq_of_find?_eq {entries others : List (String × α)} (h : Ascending (names entries))
    (hothers : Ascending (names others)) (hfind : ∀ name, find? name entries = find? name others) :
    entries = others := by
  refine eq_of_perm_of_ascending h hothers ?_
  refine (List.perm_ext_iff_of_nodup (.of_map _ h.nodup) (.of_map _ hothers.nodup)).mpr ?_
  rintro ⟨name, value⟩
  rw [← find?_eq_some_iff_mem h.nodup, hfind, find?_eq_some_iff_mem hothers.nodup]

end Entries

/-- The last declaration of a name. -/
def lastNamed? (name : String) (declarations : List Declaration) : Option Declaration :=
  (declarations.filter fun declaration => declaration.name == name).getLast?

/-- The same declarations in another order, where those of one name keep theirs. -/
def SameByName (others declarations : List Declaration) : Prop :=
  ∀ name, others.filter (fun declaration => declaration.name == name)
    = declarations.filter fun declaration => declaration.name == name

/-- The name of the one does not come behind the name of the other. -/
def Declaration.namedUpTo (a b : Declaration) : Bool :=
  !namePrecedes b.name a.name

namespace Index

/-- The index answers as the list does, where the last declaration of a name counts, and lists
what it keeps by name, however that was ordered before. -/
structure Answers (index : Index) (declarations : List Declaration) : Prop where
  find? : ∀ name, index.find? name = lastNamed? name declarations
  contains : ∀ name, index.contains name = (lastNamed? name declarations).isSome
  size : index.size = (declarations.map Declaration.name).toFinset.card
  enumMembers? : ∀ name members, index.enumMembers? name = some members
    ↔ ∃ declaration, lastNamed? name declarations = some declaration
        ∧ declaration.body = .enumeration members
  listed : ∀ declaration, declaration ∈ index.declarations
    ↔ ∃ name, index.find? name = some declaration
  nodup : index.declarations.Nodup
  ascending : Ascending (index.declarations.map Declaration.name)
  sorted : ∀ kept : List Declaration, kept.Perm index.declarations →
    kept.mergeSort Declaration.namedUpTo = index.declarations

/-! ## Look-up -/

theorem find?_ofList (name : String) (declarations : List Declaration) :
    (ofList declarations).find? name = lastNamed? name declarations := by
  rw [find?, ofList, Entries.find?_sortByName, Entries.last?, lastNamed?, List.filter_map,
    List.getLast?_map, Option.map_map]
  exact Option.map_id'

theorem mem_names_ofList {name : String} {declarations : List Declaration} :
    name ∈ (ofList declarations).names ↔ name ∈ declarations.map Declaration.name := by
  rw [names, ofList, Entries.mem_names_sortByName, Entries.names, List.map_map]
  rfl

theorem size_ofList (declarations : List Declaration) :
    (ofList declarations).size = (declarations.map Declaration.name).toFinset.card := by
  have hnames : (declarations.map Declaration.name).toFinset
      = (ofList declarations).names.toFinset := by
    ext name
    rw [List.mem_toFinset, List.mem_toFinset, mem_names_ofList]
  rw [hnames, List.toFinset_card_of_nodup (ascending_ofList declarations).nodup, names,
    Entries.names, List.length_map, size]

/-! ## The list of what is kept -/

theorem mem_declarations_ofList {declarations : List Declaration} {declaration : Declaration} :
    declaration ∈ (ofList declarations).declarations
      ↔ ∃ name, (ofList declarations).find? name = some declaration := by
  have hnamed := isNamed_ofList declarations
  rw [mem_declarations_iff hnamed (ascending_ofList declarations).nodup]
  constructor
  · intro hfind
    exact ⟨declaration.name, hfind⟩
  · rintro ⟨name, hfind⟩
    rwa [hnamed name declaration hfind]

theorem ascending_declarations (declarations : List Declaration) :
    Ascending ((ofList declarations).declarations.map Declaration.name) := by
  have hascending := ascending_ofList declarations
  rwa [map_name_declarations (isNamed_ofList declarations) hascending.nodup]

theorem namedUpTo_trans (a b c : Declaration) (hab : a.namedUpTo b = true)
    (hbc : b.namedUpTo c = true) : a.namedUpTo c = true := by
  simp only [Declaration.namedUpTo, namePrecedes, Bool.not_eq_true', decide_eq_false_iff_not,
    List.not_lt] at *
  exact List.le_trans hab hbc

theorem namedUpTo_total (a b : Declaration) : (a.namedUpTo b || b.namedUpTo a) = true := by
  simp only [Declaration.namedUpTo, namePrecedes, Bool.or_eq_true, Bool.not_eq_true',
    decide_eq_false_iff_not, List.not_lt]
  exact List.le_total _ _

theorem namedUpTo_of_namePrecedes {a b : Declaration} (h : namePrecedes a.name b.name = true) :
    a.namedUpTo b = true := by
  rw [Declaration.namedUpTo, Bool.not_eq_true', ← Bool.not_eq_true]
  intro hbehind
  exact ne_of_namePrecedes (namePrecedes_trans h hbehind) rfl

/-- Of two different names one comes behind the other. -/
theorem name_eq_of_namedUpTo {a b : Declaration} (hab : a.namedUpTo b = true)
    (hba : b.namedUpTo a = true) : a.name = b.name := by
  rw [Declaration.namedUpTo, Bool.not_eq_true', ← Bool.not_eq_true] at hab hba
  by_contra hne
  exact hab (namePrecedes_of_not hne hba)

/-- Sorting by name takes every order of declarations with different names to the ascending one. -/
theorem mergeSort_eq_of_ascending {kept declarations : List Declaration}
    (h : Ascending (declarations.map Declaration.name)) (hperm : kept.Perm declarations) :
    kept.mergeSort Declaration.namedUpTo = declarations := by
  have hascending : declarations.Pairwise fun a b => namePrecedes a.name b.name = true :=
    List.pairwise_map.mp h
  have hsorted := (List.mergeSort_perm kept Declaration.namedUpTo).trans hperm
  refine List.Perm.eq_of_pairwise ?_ (List.pairwise_mergeSort namedUpTo_trans namedUpTo_total kept)
    (hascending.imp namedUpTo_of_namePrecedes) hsorted
  intro a b ha hb hab hba
  exact List.inj_on_of_nodup_map h.nodup (hsorted.mem_iff.mp ha) hb (name_eq_of_namedUpTo hab hba)

/-! ## The whole index -/

/-- Lists whose last declarations are the same have the same index. -/
theorem ofList_eq_of_lastNamed? {others declarations : List Declaration}
    (h : ∀ name, lastNamed? name others = lastNamed? name declarations) :
    ofList others = ofList declarations := by
  have hentries : (ofList others).entries = (ofList declarations).entries := by
    refine Entries.eq_of_find?_eq (ascending_ofList others) (ascending_ofList declarations) ?_
    intro name
    exact (find?_ofList name others).trans ((h name).trans (find?_ofList name declarations).symm)
  rw [ofList, ofList, mk.injEq]
  exact hentries

theorem answers_ofList (declarations : List Declaration) :
    (ofList declarations).Answers declarations := by
  have hascending := ascending_declarations declarations
  constructor
  case find? => exact fun name => find?_ofList name declarations
  case contains => exact fun name => congrArg Option.isSome (find?_ofList name declarations)
  case size => exact size_ofList declarations
  case enumMembers? =>
    intro name members
    rw [enumMembers?_eq_some_iff, find?_ofList]
  case listed => exact fun declaration => mem_declarations_ofList
  case nodup => exact .of_map _ hascending.nodup
  case ascending => exact hascending
  case sorted => exact fun kept hperm => mergeSort_eq_of_ascending hascending hperm

/-- The index of a list answers as the list does, where the last declaration of a name counts. It
is the same for every order of the list in which the declarations of one name keep theirs. -/
theorem ofList_answers (declarations : List Declaration) :
    (ofList declarations).Answers declarations
      ∧ ∀ others, SameByName others declarations → ofList others = ofList declarations := by
  refine ⟨answers_ofList declarations, ?_⟩
  intro others hsame
  apply ofList_eq_of_lastNamed?
  intro name
  rw [lastNamed?, hsame name, lastNamed?]

/-- The later one of two declarations of a name counts wherever the others stand. -/
theorem ofList_answers_shuffled :
    let user : Declaration := ⟨"User", .interface []⟩
    let role : Declaration := ⟨"User", .enumeration [⟨"Admin", none⟩]⟩
    let pet : Declaration := ⟨"Pet", .namespace⟩
    let index := ofList [user, pet, role]
    SameByName [user, role, pet] [user, pet, role]
      ∧ ofList [user, role, pet] = index
      ∧ index.find? "User" = some role
      ∧ index.size = 2
      ∧ index.enumMembers? "User" = some [⟨"Admin", none⟩]
      ∧ Ascending (index.declarations.map Declaration.name) := by
  intro user role pet index
  obtain ⟨hanswers, horder⟩ := ofList_answers [user, pet, role]
  have hlast : lastNamed? "User" [user, pet, role] = some role := by
    simp [lastNamed?, user, pet, role]
  have hsame : SameByName [user, role, pet] [user, pet, role] := by
    intro name
    by_cases huser : "User" = name
    · subst huser
      simp [user, pet, role]
    · by_cases hpet : "Pet" = name <;> simp [user, pet, role, huser, hpet]
  refine ⟨hsame, horder _ hsame, (hanswers.find? "User").trans hlast, hanswers.size.trans ?_,
    (hanswers.enumMembers? "User" _).mpr ⟨role, hlast, rfl⟩, hanswers.ascending⟩
  simp [user, pet, role]

end Index

end Specimen
