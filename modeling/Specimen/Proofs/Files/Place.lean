import Specimen.Files.FileSystem

/-!
# Where paths lead

A path leads to a place that can be told from its names and the working directory alone: `.` stays
where one is, `..` goes back by one name, and every other name goes on. What is at the places on the
way decides only whether the path can be followed at all. Main statements: `slot_spec`, and
`placeOf_withFileName`, that two file names in one directory lead to places side by side.
-/

namespace Specimen

/-- The place that a name leads to from a place. -/
def nextPlace (place : Place) (name : String) : Place :=
  if name = "." then place else if name = ".." then place.dropLast else place ++ [name]

/-- The place that names lead to from a place. -/
def placeBehind (place : Place) (names : List String) : Place :=
  names.foldl nextPlace place

/-- The place that a path leads to, whether or not anything is there. -/
def FileSystem.placeOf (files : FileSystem) (path : Path) : Place :=
  placeBehind (if path.isAbsolute then [] else placeBehind [] files.home) path.names

theorem placeBehind_append (place : Place) (names more : List String) :
    placeBehind place (names ++ more) = placeBehind (placeBehind place names) more :=
  List.foldl_append

theorem nextPlace_name {name : String} (hdot : name ≠ ".") (hup : name ≠ "..") (place : Place) :
    nextPlace place name = place ++ [name] := by
  rw [nextPlace, if_neg hdot, if_neg hup]

/-! ## Following names -/

/-- Further in is what is further in from there. -/
theorem Node.find?_append (node : Node) (place more : Place) :
    node.find? (place ++ more) = (node.find? place).bind (Node.find? more) := by
  induction place generalizing node with
  | nil => rfl
  | cons first place ih =>
      simp only [List.cons_append, find?]
      cases node.child? first with
      | none => rfl
      | some inner => exact ih inner

theorem Node.find?_singleton (name : String) (node : Node) :
    node.find? [name] = node.child? name := by
  simp only [find?]
  cases node.child? name <;> rfl

namespace FileSystem

/-- The directories around a spot lie one inside the other, the outermost in the root. -/
def Spot.LiesIn (root : Node) : Node → List (String × Node) → Prop
  | node, [] => node = root
  | node, (name, outer) :: above => outer.child? name = some node ∧ Spot.LiesIn root outer above

/-- At the place of a spot is its node. -/
theorem Spot.LiesIn.find? {root node : Node} {above : List (String × Node)}
    (h : Spot.LiesIn root node above) :
    root.find? (above.map Prod.fst).reverse = some node := by
  induction above generalizing node with
  | nil =>
      obtain rfl : node = root := h
      rfl
  | cons entry above ih =>
      obtain ⟨name, outer⟩ := entry
      rw [List.map_cons, List.reverse_cons, Node.find?_append, ih h.2, Option.bind_some,
        Node.find?_singleton]
      exact h.1

theorem Spot.place_cons (node inner : Node) (name : String) (above : List (String × Node)) :
    Spot.place ⟨inner, (name, node) :: above⟩ = Spot.place ⟨node, above⟩ ++ [name] := by
  simp [Spot.place]

theorem refuseIf_eq_ok {reason : Bool} {fault : FileFault} (h : refuseIf reason fault = .ok ()) :
    reason = false := by
  cases reason with
  | false => rfl
  | true => cases h

/-- What is left of a chain of steps once its first step has succeeded. -/
theorem exists_of_bind {ε α β : Type} {first : Except ε α} {next : α → Except ε β} {y : β}
    (h : (first >>= next) = .ok y) : ∃ x, first = .ok x ∧ next x = .ok y := by
  cases first with
  | error fault => cases h
  | ok x => exact ⟨x, rfl, h⟩

variable {root : Node}

theorem Spot.liesIn_outer {spot : Spot} (h : Spot.LiesIn root spot.node spot.above) :
    Spot.LiesIn root spot.outer.node spot.outer.above
      ∧ spot.outer.place = spot.place.dropLast := by
  obtain ⟨node, above⟩ := spot
  cases above with
  | nil => exact ⟨h, rfl⟩
  | cons entry above =>
      refine ⟨h.2, ?_⟩
      rw [Spot.place_cons, List.dropLast_concat]
      rfl

theorem Spot.liesIn_inner {spot inner : Spot} {name : String}
    (h : Spot.LiesIn root spot.node spot.above) (hinner : spot.inner name = .ok inner) :
    Spot.LiesIn root inner.node inner.above ∧ inner.place = spot.place ++ [name] := by
  obtain ⟨-, -, hchild⟩ := exists_of_bind hinner
  cases hfound : spot.node.child? name with
  | none =>
      rw [hfound] at hchild
      cases hchild
  | some node =>
      rw [hfound] at hchild
      cases hchild
      exact ⟨⟨hfound, h⟩, Spot.place_cons _ _ _ _⟩

/-- Names that can be followed lead to the place that they name. -/
theorem Spot.follow_spec {spot behind : Spot} {names : List String}
    (h : Spot.LiesIn root spot.node spot.above) (hfollow : spot.follow names = .ok behind) :
    Spot.LiesIn root behind.node behind.above
      ∧ behind.place = placeBehind spot.place names := by
  induction names generalizing spot with
  | nil =>
      cases hfollow
      exact ⟨h, rfl⟩
  | cons name names ih =>
      obtain ⟨-, -, hfollow⟩ := exists_of_bind hfollow
      have hnext : placeBehind spot.place (name :: names)
          = placeBehind (nextPlace spot.place name) names := rfl
      rw [hnext]
      by_cases hdot : name = "."
      · rw [if_pos hdot] at hfollow
        rw [nextPlace, if_pos hdot]
        exact ih h hfollow
      by_cases hup : name = ".."
      · rw [if_neg hdot, if_pos hup] at hfollow
        obtain ⟨houter, hplace⟩ := Spot.liesIn_outer h
        rw [nextPlace, if_neg hdot, if_pos hup, ← hplace]
        exact ih houter hfollow
      · rw [if_neg hdot, if_neg hup] at hfollow
        obtain ⟨inner, hinner, hfollow⟩ := exists_of_bind hfollow
        obtain ⟨hlies, hplace⟩ := Spot.liesIn_inner h hinner
        rw [nextPlace_name hdot hup, ← hplace]
        exact ih hlies hfollow

theorem start_spec {files : FileSystem} {path : Path} {spot : Spot}
    (h : files.start path = .ok spot) :
    Spot.LiesIn files.root spot.node spot.above
      ∧ spot.place = if path.isAbsolute then [] else placeBehind [] files.home := by
  have hroot : Spot.LiesIn files.root files.root [] := rfl
  unfold start at h
  split at h
  · rename_i habsolute
    cases h
    exact ⟨hroot, by rw [if_pos habsolute]; rfl⟩
  · rename_i hrelative
    rw [if_neg hrelative]
    refine Spot.follow_spec ?_ h
    exact hroot

/-- What a path gives to something new is a name in a directory that is there: the place that the
path leads to. -/
theorem slot_spec {files : FileSystem} {nameless : FileFault} {path : Path} {place : Place}
    {present : Option Node} (h : files.slot nameless path = .ok (place, present)) :
    place = files.placeOf path ∧ present = files.node? place
      ∧ ∃ outer name directory, place = outer ++ [name] ∧ files.node? outer = some directory
        ∧ directory.isDirectory = true := by
  obtain ⟨-, -, h⟩ := exists_of_bind h
  split at h
  · cases h
  rename_i name hlast
  obtain ⟨spot, hstart, h⟩ := exists_of_bind h
  obtain ⟨behind, hfollow, h⟩ := exists_of_bind h
  obtain ⟨⟨⟩, hdirectory, h⟩ := exists_of_bind h
  obtain ⟨⟨⟩, hname, h⟩ := exists_of_bind h
  obtain ⟨-, -, h⟩ := exists_of_bind h
  cases h
  obtain ⟨hlies, hbegin⟩ := start_spec hstart
  obtain ⟨hlies, hplace⟩ := Spot.follow_spec hlies hfollow
  have hfind : files.node? behind.place = some behind.node := hlies.find?
  have hnames : path.names = path.names.dropLast ++ [name] := by
    obtain ⟨front, hfront⟩ := List.getLast?_eq_some_iff.mp hlast
    rw [hfront, List.dropLast_concat]
  have hplain : name ≠ "." ∧ name ≠ ".." := by
    have := refuseIf_eq_ok hname
    simpa using this
  refine ⟨?_, ?_, behind.place, name, behind.node, rfl, hfind, ?_⟩
  · rw [placeOf, hnames, placeBehind_append, ← hbegin, ← hplace]
    exact (nextPlace_name hplain.1 hplain.2 _).symm
  · have hroot : files.root.find? behind.place = some behind.node := hfind
    rw [node?, Node.find?_append, hroot, Option.bind_some, Node.find?_singleton]
  · have := refuseIf_eq_ok hdirectory
    simpa using this

end FileSystem

/-! ## File names -/

namespace Path

theorem isIdle_eq_false_iff {segment : String} :
    isIdle segment = false ↔ segment ≠ "" ∧ segment ≠ "." := by
  rw [isIdle, Bool.or_eq_false_iff, beq_eq_false_iff_ne, beq_eq_false_iff_ne]

/-- The names among segments. -/
def namesOf (segments : List String) : List String :=
  segments.filter (· != "")

theorem namesOf_append (segments more : List String) :
    namesOf (segments ++ more) = namesOf segments ++ namesOf more :=
  List.filter_append ..

/-- Idle segments lead nowhere. -/
theorem placeBehind_idle {segments : List String} (h : ∀ segment ∈ segments, isIdle segment = true)
    (place : Place) : placeBehind place (namesOf segments) = place := by
  induction segments with
  | nil => rfl
  | cons segment segments ih =>
      have hfirst := h segment List.mem_cons_self
      have hmore := ih fun other hother => h other (List.mem_cons_of_mem segment hother)
      rw [isIdle, Bool.or_eq_true, beq_iff_eq, beq_iff_eq] at hfirst
      rcases hfirst with rfl | rfl
      · exact hmore
      · exact hmore

/-- Segments with a last name: what is in front of it, and the idle segments behind it. -/
structure EndsWith (segments outer : List String) (name : String) : Prop where
  busy : isIdle name = false
  split : ∃ idle, segments = outer ++ name :: idle ∧ ∀ segment ∈ idle, isIdle segment = true

theorem EndsWith.placeBehind_eq {segments outer : List String} {name : String}
    (h : EndsWith segments outer name) (hup : name ≠ "..") (place : Place) :
    placeBehind place (namesOf segments) = placeBehind place (namesOf outer) ++ [name] := by
  obtain ⟨idle, rfl, hidle⟩ := h.split
  have hbusy := isIdle_eq_false_iff.mp h.busy
  have hname : namesOf (name :: idle) = name :: namesOf idle :=
    List.filter_cons_of_pos (bne_iff_ne.mpr hbusy.1)
  rw [namesOf_append, hname, placeBehind_append]
  show placeBehind (nextPlace _ name) (namesOf idle) = _
  rw [placeBehind_idle hidle, nextPlace_name hbusy.2 hup]

theorem EndsWith.outerSegments?_eq {segments outer : List String} {name : String}
    (h : EndsWith segments outer name) :
    outerSegments? segments.reverse = some (outer.reverse.dropWhile isIdle) := by
  obtain ⟨idle, rfl, hidle⟩ := h.split
  have hfrom : ∀ front : List String, (∀ segment ∈ front, isIdle segment = true) →
      outerSegments? (front ++ name :: outer.reverse)
        = some (outer.reverse.dropWhile isIdle) := by
    intro front hfront
    induction front with
    | nil => simp [outerSegments?, h.busy]
    | cons segment front ih =>
        rw [List.cons_append, outerSegments?, if_pos (hfront segment List.mem_cons_self)]
        exact ih fun other hother => hfront other (List.mem_cons_of_mem segment hother)
  have hreverse : (outer ++ name :: idle).reverse = idle.reverse ++ name :: outer.reverse := by simp
  rw [hreverse]
  exact hfrom _ fun segment hmem => hidle segment (List.mem_reverse.mp hmem)

/-- A path with a file name ends with it. -/
theorem endsWith_of_fileName? {path : Path} {name : String} (h : path.fileName? = some name) :
    name ≠ ".." ∧ ∃ outer, EndsWith path.segments outer name := by
  obtain ⟨hlast, hup⟩ := Option.filter_eq_some_iff.mp h
  refine ⟨by simpa using hup, ?_⟩
  have hnames : path.names.filter (· != ".") = path.segments.filter fun s => !isIdle s := by
    rw [names, List.filter_filter]
    congr 1
    funext segment
    simp [isIdle, bne, Bool.and_comm]
  rw [hnames] at hlast
  have hfind : path.segments.reverse.find? (fun s => !isIdle s) = some name := by
    rw [← List.head?_filter, List.filter_reverse, List.head?_reverse, hlast]
  obtain ⟨hbusy, front, more, hsplit, hfront⟩ := List.find?_eq_some_iff_append.mp hfind
  refine ⟨more.reverse, by simpa using hbusy, front.reverse, ?_, ?_⟩
  · rw [← List.reverse_reverse path.segments, hsplit]
    simp
  · intro segment hmem
    simpa using hfront segment (List.mem_reverse.mp hmem)

/-! ## Names side by side -/

/-- What is left of segments without the idle ones at their end. -/
def busyFront (segments : List String) : List String :=
  (segments.reverse.dropWhile isIdle).reverse

theorem placeBehind_busyFront (segments : List String) (place : Place) :
    placeBehind place (namesOf (busyFront segments)) = placeBehind place (namesOf segments) := by
  have hsplit : segments = busyFront segments ++ (segments.reverse.takeWhile isIdle).reverse := by
    rw [busyFront, ← List.reverse_append, List.takeWhile_append_dropWhile, List.reverse_reverse]
  have hidle : ∀ segment ∈ (segments.reverse.takeWhile isIdle).reverse,
      isIdle segment = true := by
    intro segment hmem
    exact List.all_eq_true.mp List.all_takeWhile segment (List.mem_reverse.mp hmem)
  calc placeBehind place (namesOf (busyFront segments))
      = placeBehind place (namesOf (busyFront segments
          ++ (segments.reverse.takeWhile isIdle).reverse)) := by
        rw [namesOf_append, placeBehind_append, placeBehind_idle hidle]
    _ = placeBehind place (namesOf segments) := by rw [← hsplit]

theorem busyFront_cons {first : String} (h : isIdle first = false) (segments : List String) :
    busyFront (first :: segments) = first :: busyFront segments := by
  unfold busyFront
  rw [List.reverse_cons, List.dropWhile_append]
  cases hdrop : segments.reverse.dropWhile isIdle with
  | nil => simp [h]
  | cons last more => simp

theorem getLast?_busyFront {segments : List String} {last : String}
    (h : (busyFront segments).getLast? = some last) : last ≠ "" := by
  rw [busyFront, List.getLast?_reverse] at h
  have hbusy := List.head?_dropWhile_not isIdle segments.reverse
  rw [h] at hbusy
  rintro rfl
  simp [isIdle] at hbusy

theorem child_of_getLast? {segments : List String} (h : segments.getLast? ≠ some "")
    (name : String) : child ⟨segments⟩ name = ⟨segments ++ [name]⟩ := by
  unfold child
  dsimp only
  split
  · rename_i outer hreverse
    refine absurd ?_ h
    rw [List.getLast?_eq_head?_reverse, hreverse]
    rfl
  · rfl

/-- A directory whose path does not end with a slash. -/
theorem child_cons_busyFront {first : String} {segments : List String}
    (h : first ≠ "" ∨ busyFront segments ≠ []) (name : String) :
    child ⟨first :: busyFront segments⟩ name = ⟨first :: busyFront segments ++ [name]⟩ := by
  apply child_of_getLast?
  rw [List.getLast?_cons]
  cases hlast : (busyFront segments).getLast? with
  | none =>
      have hempty := List.getLast?_eq_none_iff.mp hlast
      simpa [hempty] using h
  | some last => simpa using getLast?_busyFront hlast

theorem withFileName_of_nil {path : Path} {name : String} (h : EndsWith path.segments [] name)
    (new : String) : path.withFileName new = ⟨[new]⟩ := by
  obtain ⟨segments⟩ := path
  have hskip := h.outerSegments?_eq
  obtain ⟨hbusy, idle, rfl, -⟩ := h
  obtain ⟨hroot, hhere⟩ := isIdle_eq_false_iff.mp hbusy
  rw [List.nil_append] at hskip
  simp only [withFileName, parent?, List.nil_append, if_neg hroot, if_neg hhere, hskip]
  rfl

/-- The new name stands in the directory of the path, without needless segments in front of it. -/
theorem withFileName_of_cons {path : Path} {first name : String} {outer : List String}
    (h : EndsWith path.segments (first :: outer) name) (new : String) :
    path.withFileName new = ⟨first :: busyFront outer ++ [new]⟩ := by
  obtain ⟨segments⟩ := path
  have hskip := h.outerSegments?_eq
  obtain ⟨hbusy, idle, rfl, hidle⟩ := h
  have hrest : EndsWith (outer ++ name :: idle) outer name := ⟨hbusy, idle, rfl, hidle⟩
  have hskipRest := hrest.outerSegments?_eq
  rw [withFileName, List.cons_append, parent?]
  dsimp only
  -- the first segment says where the path starts
  by_cases hroot : first = ""
  · rw [if_pos hroot, hskipRest, Option.map_some, Option.getD_some, hroot]
    by_cases hempty : busyFront outer = []
    · have hdrop : outer.reverse.dropWhile isIdle = [] := List.reverse_eq_nil_iff.mp hempty
      rw [hempty, hdrop]
      rfl
    · have hdrop : (outer.reverse.dropWhile isIdle).isEmpty = false := by
        rw [List.isEmpty_eq_false_iff]
        exact mt List.reverse_eq_nil_iff.mpr hempty
      rw [hdrop, if_neg Bool.false_ne_true]
      exact child_cons_busyFront (.inr hempty) new
  rw [if_neg hroot]
  by_cases hhere : first = "."
  · rw [if_pos hhere, hskipRest, hhere]
    exact child_cons_busyFront (.inl (by decide)) new
  · have hfirst := isIdle_eq_false_iff.mpr ⟨hroot, hhere⟩
    have hfront : ((first :: outer).reverse.dropWhile isIdle).reverse = first :: busyFront outer :=
      busyFront_cons hfirst outer
    have hsome : ((first :: outer).reverse.dropWhile isIdle).isEmpty = false := by
      rw [List.isEmpty_eq_false_iff, ne_eq, ← List.reverse_eq_nil_iff, hfront]
      exact List.cons_ne_nil _ _
    rw [List.cons_append] at hskip
    rw [if_neg hhere, hskip, Option.map_some, Option.getD_some, hsome, if_neg Bool.false_ne_true,
      hfront]
    exact child_cons_busyFront (.inl hroot) new

end Path

/-- Another file name in the directory of a path leads to a place beside the one of the path. -/
theorem FileSystem.placeOf_withFileName {path : Path} {name new : String}
    (h : path.fileName? = some name) (hbusy : Path.isIdle new = false) (hup : new ≠ "..")
    (files : FileSystem) :
    ∃ outer, files.placeOf path = outer ++ [name]
      ∧ files.placeOf (path.withFileName new) = outer ++ [new] := by
  obtain ⟨hname, outer, hends⟩ := Path.endsWith_of_fileName? h
  obtain ⟨kept, hkept, hsame, habsolute⟩ : ∃ kept, path.withFileName new = ⟨kept ++ [new]⟩
      ∧ (∀ place, placeBehind place (Path.namesOf kept) = placeBehind place (Path.namesOf outer))
      ∧ Path.isAbsolute ⟨kept ++ [new]⟩ = path.isAbsolute := by
    cases outer with
    | nil =>
        refine ⟨[], Path.withFileName_of_nil hends new, fun _ => rfl, ?_⟩
        obtain ⟨hbusy, idle, hsplit, -⟩ := hends
        cases idle <;> simp_all [Path.isAbsolute, Path.isIdle]
    | cons first outer =>
        refine ⟨_, Path.withFileName_of_cons hends new, fun place => ?_, ?_⟩
        · have hcons : ∀ more, placeBehind place (Path.namesOf (first :: more))
              = placeBehind (placeBehind place (Path.namesOf [first])) (Path.namesOf more) :=
            fun more => by rw [← placeBehind_append, ← Path.namesOf_append, List.singleton_append]
          rw [hcons (Path.busyFront outer), hcons outer, Path.placeBehind_busyFront]
        · obtain ⟨segments⟩ := path
          obtain ⟨-, idle, rfl, -⟩ := hends
          cases Path.busyFront outer <;> cases outer <;> rfl
  have hnew : Path.EndsWith (kept ++ [new]) kept new := ⟨hbusy, [], rfl, by simp⟩
  refine ⟨_, hends.placeBehind_eq hname _, ?_⟩
  rw [hkept, ← hsame, ← habsolute]
  exact hnew.placeBehind_eq hup _

end Specimen
