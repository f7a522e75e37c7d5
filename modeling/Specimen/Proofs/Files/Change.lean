import Specimen.Proofs.Files.Place

/-!
# What actions on files change

A file system is looked at place by place: at each place there is nothing, a directory or a file
with its text (`FileSystem.occupant?`). Putting something at a place changes what is there and
nothing else, as long as no directory with something in it is put or taken away (`occupant?_put`).
So an action that succeeds changes the files at the places of its paths only:
`createDirectory_changesOnly`, `write_spec`, `move_spec`.
-/

namespace Specimen

namespace FileSystem

/-- What is at a place: a file with its text, or a directory. -/
def occupant? (files : FileSystem) (place : Place) : Option (Option String) :=
  (files.node? place).map Node.text?

/-- The text of the file at a place, if there is a file. -/
def text? (files : FileSystem) (place : Place) : Option String :=
  (files.occupant? place).join

/-- The working directory stays, and so do the files at all places but some. -/
structure ChangesOnly (places : List Place) (files files' : FileSystem) : Prop where
  home_eq : files'.home = files.home
  text_eq : ∀ place, place ∉ places → files'.text? place = files.text? place

namespace ChangesOnly

variable {places more : List Place} {files files' files'' : FileSystem}

theorem refl (places : List Place) (files : FileSystem) : ChangesOnly places files files :=
  ⟨rfl, fun _ _ => rfl⟩

theorem trans (h : ChangesOnly places files files') (h' : ChangesOnly places files' files'') :
    ChangesOnly places files files'' :=
  ⟨h'.home_eq.trans h.home_eq,
    fun place hplace => (h'.text_eq place hplace).trans (h.text_eq place hplace)⟩

theorem mono (h : ChangesOnly places files files') (hsubset : places ⊆ more) :
    ChangesOnly more files files' :=
  ⟨h.home_eq, fun place hplace => h.text_eq place fun hmem => hplace (hsubset hmem)⟩

/-- Paths lead where they led before. -/
theorem placeOf_eq (h : ChangesOnly places files files') (path : Path) :
    files'.placeOf path = files.placeOf path := by
  rw [placeOf, placeOf, h.home_eq]

end ChangesOnly

/-! ## Putting something at a place -/

/-- There is nothing inside. -/
def IsBare (node? : Option Node) : Prop :=
  ∀ name, node?.bind (Node.child? name) = none

theorem isBare_none : IsBare none :=
  fun _ => rfl

theorem isBare_file (text : String) : IsBare (some (.file text)) :=
  fun _ => rfl

theorem isBare_of_occupant? {files : FileSystem} {place : Place}
    (h : files.occupant? place ≠ some none) : IsBare (files.node? place) := by
  intro name
  unfold occupant? at h
  cases hnode : files.node? place with
  | none => rfl
  | some node =>
      cases node with
      | file text => rfl
      | directory entries =>
          rw [hnode] at h
          exact absurd rfl h

/-- Behind a place without anything inside there is nothing. -/
theorem IsBare.find?_eq {node : Node} {place more : Place} (h : IsBare (node.find? place))
    (hmore : more ≠ []) : node.find? (place ++ more) = none := by
  obtain ⟨name, more, rfl⟩ := List.exists_cons_of_ne_nil hmore
  have hname := h name
  rw [← Option.bind_congr fun _ _ => Node.find?_singleton name _, ← Node.find?_append] at hname
  rw [← List.singleton_append, ← List.append_assoc, Node.find?_append, hname, Option.bind_none]

theorem exists_of_occupant?_eq {files : FileSystem} {place : Place}
    (h : files.occupant? place = some none) :
    ∃ directory, files.node? place = some directory ∧ directory.isDirectory = true := by
  obtain ⟨node, hnode, htext⟩ := Option.map_eq_some_iff.mp h
  refine ⟨node, hnode, ?_⟩
  cases node with
  | file text => cases htext
  | directory entries => rfl

/-- In a directory something is put at a name, and nothing else changes. -/
theorem occupant?_put {files : FileSystem} {outer : Place} {name : String} {new : Option Node}
    (houter : files.occupant? outer = some none)
    (hold : files.occupant? (outer ++ [name]) ≠ some none) (hnew : IsBare new) (other : Place) :
    (files.put (outer ++ [name]) new).occupant? other
      = if other = outer ++ [name] then new.map Node.text? else files.occupant? other := by
  obtain ⟨directory, hfind, hdirectory⟩ := exists_of_occupant?_eq houter
  have hself : (files.root.put new (outer ++ [name])).find? (outer ++ [name]) = new :=
    Node.find?_put_self hfind hdirectory
  split
  · rename_i hsame
    rw [hsame, occupant?, node?, put, hself]
  · rename_i hne
    by_cases hprefix : (outer ++ [name]) <+: other
    · -- before and after there is nothing further in
      obtain ⟨more, rfl⟩ := hprefix
      have hmore : more ≠ [] := by
        rintro rfl
        exact hne (List.append_nil _)
      have hafter : IsBare ((files.root.put new (outer ++ [name])).find? (outer ++ [name])) := by
        rw [hself]
        exact hnew
      have hbefore : IsBare (files.root.find? (outer ++ [name])) := isBare_of_occupant? hold
      rw [occupant?, occupant?, node?, node?, put, hafter.find?_eq hmore, hbefore.find?_eq hmore]
    · exact Node.find?_put_of_not_prefix hfind hdirectory hprefix

theorem text?_put {files : FileSystem} {outer : Place} {name : String} {new : Option Node}
    (houter : files.occupant? outer = some none)
    (hold : files.occupant? (outer ++ [name]) ≠ some none) (hnew : IsBare new) :
    (files.put (outer ++ [name]) new).text? (outer ++ [name]) = new.bind Node.text?
      ∧ ChangesOnly [outer ++ [name]] files (files.put (outer ++ [name]) new) := by
  refine ⟨?_, rfl, fun other hother => ?_⟩
  · rw [text?, occupant?_put houter hold hnew, if_pos rfl]
    cases new <;> rfl
  · rw [text?, occupant?_put houter hold hnew, if_neg (List.ne_of_not_mem_cons hother)]
    rfl

/-! ## Actions -/

/-- The place of a path, in a directory that is there. -/
theorem exists_place_of_slot {files : FileSystem} {nameless : FileFault} {path : Path}
    {place : Place} {present : Option Node} (h : files.slot nameless path = .ok (place, present)) :
    place = files.placeOf path ∧ files.occupant? place = present.map Node.text?
      ∧ ∃ outer name, place = outer ++ [name] ∧ files.occupant? outer = some none := by
  obtain ⟨hplace, hpresent, outer, name, directory, hsplit, hfind, hdirectory⟩ := slot_spec h
  refine ⟨hplace, by rw [occupant?, hpresent], outer, name, hsplit, ?_⟩
  rw [occupant?, hfind]
  cases directory with
  | file text => cases hdirectory
  | directory entries => rfl

/-- A place without a directory. -/
theorem occupant?_ne_of_any {files : FileSystem} {place : Place} {present : Option Node}
    (hentry : files.occupant? place = present.map Node.text?)
    (h : present.any Node.isDirectory = false) : files.occupant? place ≠ some none := by
  rw [hentry]
  cases present with
  | none => exact nofun
  | some node =>
      cases node with
      | file text => exact nofun
      | directory entries => cases h

/-- A new directory changes no file. -/
theorem createDirectory_changesOnly {files files' : FileSystem} {path : Path}
    (h : files.createDirectory path = .ok files') : ChangesOnly [] files files' := by
  obtain ⟨⟨place, present⟩, hslot, h⟩ := exists_of_bind h
  obtain ⟨⟨⟩, habsent, h⟩ := exists_of_bind h
  cases h
  obtain ⟨-, hentry, outer, name, rfl, houter⟩ := exists_place_of_slot hslot
  have hnone : files.occupant? (outer ++ [name]) = none := by
    rw [hentry, Option.isNone_iff_eq_none.mp
      (Option.isSome_eq_false_iff.mp (refuseIf_eq_ok habsent))]
    rfl
  have hnew : IsBare (some (.directory [])) := fun _ => rfl
  have hold : files.occupant? (outer ++ [name]) ≠ some none := by
    rw [hnone]
    exact nofun
  obtain ⟨hself, hchanges⟩ := text?_put houter hold hnew
  refine ⟨rfl, fun other _ => ?_⟩
  by_cases hsame : other = outer ++ [name]
  · rw [hsame, hself, text?, hnone]
    rfl
  · exact hchanges.text_eq other (by simpa using hsame)

/-- Writing changes the file of the path only, and gives it the text. -/
theorem write_spec {files files' : FileSystem} {path : Path} {text : String}
    (h : files.write path text = .ok files') :
    ChangesOnly [files.placeOf path] files files'
      ∧ files'.text? (files.placeOf path) = some text := by
  obtain ⟨⟨place, present⟩, hslot, h⟩ := exists_of_bind h
  obtain ⟨⟨⟩, hfile, h⟩ := exists_of_bind h
  cases h
  obtain ⟨hplace, hentry, outer, name, rfl, houter⟩ := exists_place_of_slot hslot
  have hold := occupant?_ne_of_any hentry (Bool.or_eq_false_iff.mp (refuseIf_eq_ok hfile)).2
  obtain ⟨hself, hchanges⟩ := text?_put houter hold (isBare_file text)
  rw [← hplace]
  exact ⟨hchanges, hself⟩

/-- Moving changes the files of the two paths only: the second one has the text of the first one,
and the first one is gone. -/
theorem move_spec {files files' : FileSystem} {source target : Path}
    (h : files.move source target = .ok files')
    (hne : files.placeOf source ≠ files.placeOf target) :
    ChangesOnly [files.placeOf source, files.placeOf target] files files'
      ∧ files'.text? (files.placeOf target) = files.text? (files.placeOf source)
      ∧ files'.text? (files.placeOf source) = none := by
  obtain ⟨⟨origin, moved⟩, horigin, h⟩ := exists_of_bind h
  obtain ⟨⟨place, present⟩, hplace, h⟩ := exists_of_bind h
  obtain ⟨horiginPlace, horiginEntry, outer, name, rfl, houter⟩ := exists_place_of_slot horigin
  obtain ⟨hplacePlace, hplaceEntry, outer', name', rfl, houter'⟩ := exists_place_of_slot hplace
  rw [← horiginPlace, ← hplacePlace] at hne ⊢
  obtain ⟨text, rfl⟩ : ∃ text, moved = some (.file text) := by
    cases moved with
    | none => cases h
    | some node =>
        cases node with
        | file text => exact ⟨text, rfl⟩
        | directory entries => cases h
  obtain ⟨-, -, h⟩ := exists_of_bind h
  obtain ⟨⟨⟩, hfile, h⟩ := exists_of_bind h
  cases h
  have hmoved : files.occupant? (outer ++ [name]) = some (some text) := horiginEntry
  have hold : files.occupant? (outer ++ [name]) ≠ some none := by
    rw [hmoved]
    exact nofun
  have hold' := occupant?_ne_of_any hplaceEntry (refuseIf_eq_ok hfile)
  -- first the file is taken away
  have hfirst := occupant?_put houter hold isBare_none
  have hdirectory : (files.put (outer ++ [name]) none).occupant? outer' = some none := by
    rw [hfirst, if_neg, houter']
    rintro rfl
    rw [houter'] at hold
    exact hold rfl
  have hnoDirectory :
      (files.put (outer ++ [name]) none).occupant? (outer' ++ [name']) ≠ some none := by
    rwa [hfirst, if_neg (Ne.symm hne)]
  -- then it is put at its new place
  have hsecond := occupant?_put hdirectory hnoDirectory (isBare_file text)
  refine ⟨⟨rfl, fun other hother => ?_⟩, ?_, ?_⟩
  · obtain ⟨hnotOrigin, hnotPlace⟩ : other ≠ outer ++ [name] ∧ other ≠ outer' ++ [name'] := by
      simpa using hother
    rw [text?, hsecond, if_neg hnotPlace, hfirst, if_neg hnotOrigin]
    rfl
  · rw [text?, hsecond, if_pos rfl, text?, hmoved]
    rfl
  · rw [text?, hsecond, if_neg hne, hfirst, if_pos rfl]
    rfl

end FileSystem

end Specimen
