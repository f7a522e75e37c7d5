import Specimen.Pieces

/-!
# Paths

A path says where a file is: names from the root or from the working directory, one inside the
other. The name `.` stands for the directory that it is in, and `..` for the one around it.

Two readings of a path are kept apart. Whoever follows a path takes every name as it stands. The
name of the file that a path is of, and the directory around it (`Path.fileName?`, `Path.parent?`),
are read off the text alone, in which a `.` that is not the first name means nothing. A path keeps
its text, needless slashes included, since a machine puts a limit to its size.
-/

namespace Specimen

/-- Where a file is. -/
structure Path where
  /-- What stands between the slashes. -/
  segments : List String
deriving DecidableEq, Repr

namespace Path

/-- The path of a text. -/
def ofText (text : String) : Path :=
  ⟨(pieces '/' text.toList).map String.ofList⟩

/-- The text of a path. -/
def text (path : Path) : String :=
  "/".intercalate path.segments

/-- From the root and not from the working directory. -/
def isAbsolute (path : Path) : Bool :=
  match path.segments with
  | first :: _ :: _ => first == ""
  | _ => false

/-- The names to follow. Slashes that follow each other are like a single one. -/
def names (path : Path) : List String :=
  path.segments.filter (· != "")

/-- A slash stands at the end, so the path can only be that of a directory. -/
def isSlashed (path : Path) : Bool :=
  match path.segments.reverse with
  | last :: _ :: _ => last == ""
  | _ => false

/-- A path that leads nowhere. -/
def isEmpty (path : Path) : Bool :=
  !path.isAbsolute && path.names.isEmpty

/-- The name of the file that a path is of. The root, the working directory and paths up have
none. -/
def fileName? (path : Path) : Option String :=
  (path.names.filter (· != ".")).getLast?.filter (· != "..")

/-- The segment leads nowhere. -/
def isIdle (segment : String) : Bool :=
  segment == "" || segment == "."

/-- The segments before the last one that leads anywhere. All segments are given and answered in
reverse. -/
def outerSegments? : (reversed : List String) → Option (List String)
  | [] => none
  | segment :: reversed =>
      if isIdle segment then outerSegments? reversed else some (reversed.dropWhile isIdle)

/-- The directory around what a path is of. The root has none, and neither has the empty path. -/
def parent? (path : Path) : Option Path :=
  match path.segments with
  | [] => none
  | first :: segments =>
      if first = "" then
        (outerSegments? segments.reverse).map fun outer =>
          ⟨if outer.isEmpty then ["", ""] else "" :: outer.reverse⟩
      else if first = "." then
        match outerSegments? segments.reverse with
        | none => some ⟨[""]⟩
        | some outer => some ⟨"." :: outer.reverse⟩
      else
        (outerSegments? (first :: segments).reverse).map fun outer =>
          ⟨if outer.isEmpty then [""] else outer.reverse⟩

/-- The path of a name in the directory of a path. -/
def child (path : Path) (name : String) : Path :=
  match path.segments.reverse with
  | "" :: outer => ⟨outer.reverse ++ [name]⟩
  | _ => ⟨path.segments ++ [name]⟩

/-- The path of another file in the same directory. -/
def withFileName (path : Path) (name : String) : Path :=
  (path.parent?.getD ⟨[""]⟩).child name

theorem text_ofText (text : String) : (ofText text).text = text := by
  have key : ∀ parts : List (List Char),
      "/".intercalate (parts.map String.ofList) = String.ofList (['/'].intercalate parts) := by
    intro parts
    apply String.toList_inj.mp
    simp [String.toList_intercalate, Function.comp_def]
  rw [Path.text, ofText, key, intercalate_pieces, String.ofList_toList]

/-- The number of segments that are names. -/
theorem length_filter_outerSegments?_lt {reversed outer : List String}
    (h : outerSegments? reversed = some outer) :
    (outer.filter (· != "")).length < (reversed.filter (· != "")).length := by
  induction reversed with
  | nil => simp [outerSegments?] at h
  | cons segment reversed ih =>
      simp only [outerSegments?] at h
      split at h
      · have := ih h
        have := ((List.sublist_cons_self segment reversed).filter (· != "")).length_le
        omega
      · rename_i hidle
        obtain rfl := Option.some.inj h
        have hsegment : (segment != "") = true := by
          simp only [isIdle, Bool.or_eq_true, not_or, beq_iff_eq] at hidle
          simpa using hidle.1
        have hsublist : (reversed.dropWhile isIdle).Sublist reversed := List.dropWhile_sublist _
        have := (hsublist.filter (· != "")).length_le
        simp only [List.filter_cons, hsegment, if_true, List.length_cons]
        omega

theorem length_names_lt_of_parent? {path outer : Path} (h : path.parent? = some outer) :
    outer.names.length < path.names.length := by
  obtain ⟨segments⟩ := path
  cases segments with
  | nil => simp [parent?] at h
  | cons first segments =>
      simp only [parent?] at h
      split at h
      · rename_i hfirst
        obtain ⟨found, hfound, rfl⟩ := Option.map_eq_some_iff.mp h
        have := length_filter_outerSegments?_lt hfound
        rw [List.filter_reverse, List.length_reverse] at this
        subst hfirst
        simp only [names]
        split
        · simp_all
        · simpa [List.filter_reverse] using this
      · split at h
        · rename_i hfirst
          subst hfirst
          split at h
          · obtain rfl := Option.some.inj h
            simp [names]
          · rename_i found hfound
            obtain rfl := Option.some.inj h
            have := length_filter_outerSegments?_lt hfound
            rw [List.filter_reverse, List.length_reverse] at this
            simpa [names, List.filter_reverse] using this
        · obtain ⟨found, hfound, rfl⟩ := Option.map_eq_some_iff.mp h
          have := length_filter_outerSegments?_lt hfound
          rw [List.filter_reverse, List.length_reverse] at this
          simp only [names]
          split
          · simp_all
          · simpa [List.filter_reverse] using this

end Path

end Specimen
