import Specimen.Entries
import Specimen.Files.Basic

/-!
# File systems

Files and directories as a tree, and the working directory. Following a path goes through
directories only, so a name behind a file is no file of its own, and neither is a name behind one
that is missing.

Every action says first why it fails; if it does not fail, it changes what is at the places it
names and nothing else (`find?_put_self`, `find?_put_of_not_prefix`).

Some of what a machine has is outside of this: links of any kind, owners and permissions, names that
are no Unicode, files that are no text, several programs at a time, and a disk that is full. A node
is at one place only, and an action fails for the reasons that the tree gives.
-/

namespace Specimen

/-- A place in a file system: the names from the root on. -/
abbrev Place := List String

/-- What can be at a place. -/
inductive Node where
  | file (text : String)
  | directory (entries : List (String × Node))

namespace Node

/-- It is a directory. -/
def isDirectory : Node → Bool
  | .directory _ => true
  | .file _ => false

/-- The text of a file. -/
def text? : Node → Option String
  | .file text => some text
  | .directory _ => none

/-- What is in a directory under a name. -/
def child? (name : String) : Node → Option Node
  | .directory entries => Entries.find? name entries
  | .file _ => none

/-- What is at a place further in. -/
def find? : Place → Node → Option Node
  | [], node => some node
  | name :: place, node =>
      match node.child? name with
      | none => none
      | some inner => inner.find? place

/-- A directory with something else, or nothing, under a name. -/
def setEntry (name : String) (new : Option Node) : Node → Node
  | .file text => .file text
  | .directory entries =>
      match new with
      | none => .directory (Entries.erase name entries)
      | some node => .directory (Entries.set name node entries)

/-- With something else, or nothing, at a place in a directory that is there. -/
def put (new : Option Node) : Place → Node → Node
  | [], node => node
  | [name], node => node.setEntry name new
  | name :: place, node =>
      match node.child? name with
      | none => node
      | some inner => node.setEntry name (some (put new place inner))

theorem child?_setEntry (name other : String) (new : Option Node) {node : Node}
    (h : node.isDirectory = true) :
    (node.setEntry name new).child? other = if name = other then new else node.child? other := by
  cases node with
  | file text => simp [isDirectory] at h
  | directory entries =>
      cases new with
      | none => exact Entries.find?_erase name other entries
      | some inner => exact Entries.find?_set name other inner entries

theorem isDirectory_of_child? {name : String} {node inner : Node}
    (h : node.child? name = some inner) : node.isDirectory = true := by
  cases node with
  | file text => simp [child?] at h
  | directory entries => rfl

/-- What a directory is like from outside does not depend on what it has under its names. -/
theorem text?_setEntry (name : String) (new : Option Node) (node : Node) :
    (node.setEntry name new).text? = node.text? := by
  cases node with
  | file text => rfl
  | directory entries => cases new <;> rfl

/-- Under the first name of a longer place stands what was there, with the change further in. -/
theorem put_cons {new : Option Node} {first : String} {place : Place} (hplace : place ≠ [])
    {node inner : Node} (hentry : node.child? first = some inner) :
    put new (first :: place) node = node.setEntry first (some (put new place inner)) := by
  obtain ⟨second, place, rfl⟩ := List.exists_cons_of_ne_nil hplace
  simp only [put, hentry]

theorem find?_cons_of_child? {first : String} {node inner : Node}
    (hentry : node.child? first = some inner) (place : Place) :
    node.find? (first :: place) = inner.find? place := by
  simp only [find?, hentry]

theorem exists_of_find?_cons {first : String} {place : Place} {node found : Node}
    (h : node.find? (first :: place) = some found) :
    ∃ inner, node.child? first = some inner ∧ inner.find? place = some found := by
  cases hentry : node.child? first with
  | none => simp [find?, hentry] at h
  | some inner => exact ⟨inner, rfl, by rwa [find?_cons_of_child? hentry] at h⟩

/-- In a directory that is there, something is put at the place. -/
theorem find?_put_self {new : Option Node} {outer : Place} {name : String} {node directory : Node}
    (hfind : node.find? outer = some directory) (hdirectory : directory.isDirectory = true) :
    (put new (outer ++ [name]) node).find? (outer ++ [name]) = new := by
  induction outer generalizing node with
  | nil =>
      obtain rfl := Option.some.inj hfind
      simp only [List.nil_append, put, find?, child?_setEntry name name new hdirectory, if_true]
      cases new <;> rfl
  | cons first outer ih =>
      obtain ⟨inner, hentry, hfind⟩ := exists_of_find?_cons hfind
      have hchild := child?_setEntry first first (some (put new (outer ++ [name]) inner))
        (isDirectory_of_child? hentry)
      rw [if_pos rfl] at hchild
      rw [List.cons_append, put_cons (by simp) hentry, find?_cons_of_child? hchild]
      exact ih hfind

/-- At other places, unless they are further in, there is a directory or a file with the same text
as before. -/
theorem find?_put_of_not_prefix {new : Option Node} {outer : Place} {name : String}
    {node directory : Node} (hfind : node.find? outer = some directory)
    (hdirectory : directory.isDirectory = true) {other : Place}
    (hother : ¬ (outer ++ [name]) <+: other) :
    ((put new (outer ++ [name]) node).find? other).map text? = (node.find? other).map text? := by
  induction outer generalizing node other with
  | nil =>
      obtain rfl := Option.some.inj hfind
      cases other with
      | nil => exact congrArg some (text?_setEntry name new node)
      | cons first other =>
          have hne : name ≠ first := by
            rintro rfl
            exact hother ⟨other, rfl⟩
          simp only [List.nil_append, put, find?, child?_setEntry name first new hdirectory,
            if_neg hne]
  | cons first outer ih =>
      obtain ⟨inner, hentry, hfind⟩ := exists_of_find?_cons hfind
      rw [List.cons_append, put_cons (by simp) hentry]
      cases other with
      | nil => exact congrArg some (text?_setEntry first _ node)
      | cons second other =>
          have hchild := child?_setEntry first second (some (put new (outer ++ [name]) inner))
            (isDirectory_of_child? hentry)
          by_cases hsame : first = second
          · subst hsame
            rw [if_pos rfl] at hchild
            rw [find?_cons_of_child? hchild, find?_cons_of_child? hentry]
            refine ih hfind fun hinner => hother ?_
            rw [List.cons_append, List.cons_prefix_cons]
            exact ⟨rfl, hinner⟩
          · rw [if_neg hsame] at hchild
            simp only [find?, hchild]

end Node

/-- Files and directories. -/
structure FileSystem where
  root : Node
  /-- The working directory. -/
  home : Place

namespace FileSystem

/-- Nothing but the root, which is the working directory. -/
def empty : FileSystem :=
  ⟨.directory [], []⟩

/-- What is at a place. -/
def node? (files : FileSystem) (place : Place) : Option Node :=
  files.root.find? place

/-- The file system with something else, or nothing, at a place. -/
def put (files : FileSystem) (place : Place) (new : Option Node) : FileSystem :=
  { files with root := files.root.put new place }

/-! ## Following paths -/

/-- How many bytes a name may have. -/
def nameLimit : Nat := 255

/-- How many bytes a path may have. -/
def pathLimit : Nat := 4095

/-- A fault, if there is a reason for it. -/
def refuseIf (reason : Bool) (fault : FileFault) : Except FileFault Unit :=
  if reason then .error fault else .ok ()

/-- The path can be one: it has no character that no name can have, and it is neither empty nor too
long. -/
def checkPath (path : Path) : Except FileFault Unit := do
  refuseIf (path.segments.any fun segment => segment.toList.contains '\x00') .invalidName
  refuseIf path.isEmpty .missing
  refuseIf (pathLimit < path.text.utf8ByteSize) .nameTooLong

/-- Where one is on the way through a file system. -/
structure Spot where
  node : Node
  /-- The directories around it, the innermost first, each with the name that was followed in it. -/
  above : List (String × Node)

namespace Spot

/-- The place where one is. -/
def place (spot : Spot) : Place :=
  (spot.above.map Prod.fst).reverse

/-- The directory around. The root is its own. -/
def outer (spot : Spot) : Spot :=
  match spot.above with
  | [] => spot
  | (_, node) :: above => ⟨node, above⟩

/-- One is at a directory. -/
def checkDirectory (spot : Spot) : Except FileFault Unit :=
  refuseIf (!spot.node.isDirectory) .notDirectory

/-- What stands under a name. -/
def inner (spot : Spot) (name : String) : Except FileFault Spot := do
  refuseIf (nameLimit < name.utf8ByteSize) .nameTooLong
  match spot.node.child? name with
  | none => .error .missing
  | some node => .ok ⟨node, (name, spot.node) :: spot.above⟩

/-- Where names lead to. -/
def follow : Spot → List String → Except FileFault Spot
  | spot, [] => .ok spot
  | spot, name :: names => do
      spot.checkDirectory
      if name = "." then spot.follow names
      else if name = ".." then spot.outer.follow names
      else (← spot.inner name).follow names

end Spot

/-- Where a path starts. -/
def start (files : FileSystem) (path : Path) : Except FileFault Spot :=
  let root : Spot := ⟨files.root, []⟩
  if path.isAbsolute then .ok root else root.follow files.home

/-- Where a path leads to. -/
def locate (files : FileSystem) (path : Path) : Except FileFault Spot := do
  checkPath path
  let spot ← (← files.start path).follow path.names
  if path.isSlashed then spot.checkDirectory
  return spot

/-- The place that a path gives to something new, inside a directory that is there, and what is at
the place now. A path whose last name cannot be given, such as `..`, is refused as `nameless`. -/
def slot (files : FileSystem) (nameless : FileFault) (path : Path) :
    Except FileFault (Place × Option Node) := do
  checkPath path
  match path.names.getLast? with
  | none => .error nameless
  | some name =>
      let spot ← (← files.start path).follow path.names.dropLast
      spot.checkDirectory
      refuseIf (name == "." || name == "..") nameless
      refuseIf (nameLimit < name.utf8ByteSize) .nameTooLong
      return (spot.place ++ [name], spot.node.child? name)

/-! ## Actions -/

/-- The text of a file. -/
def read (files : FileSystem) (path : Path) : Except FileFault String := do
  match (← files.locate path).node with
  | .file text => .ok text
  | .directory _ => .error .isDirectory

/-- There is something at the path. -/
def isPresent (files : FileSystem) (path : Path) : Bool :=
  match files.locate path with
  | .ok _ => true
  | .error _ => false

/-- There is a directory at the path. -/
def isDirectory (files : FileSystem) (path : Path) : Bool :=
  match files.locate path with
  | .ok spot => spot.node.isDirectory
  | .error _ => false

/-- With a new directory. -/
def createDirectory (files : FileSystem) (path : Path) : Except FileFault FileSystem := do
  let (place, present) ← files.slot .alreadyExists path
  refuseIf present.isSome .alreadyExists
  return files.put place (some (.directory []))

/-- With a file of the given text. -/
def write (files : FileSystem) (path : Path) (text : String) : Except FileFault FileSystem := do
  let (place, present) ← files.slot .isDirectory path
  refuseIf (path.isSlashed || present.any Node.isDirectory) .isDirectory
  return files.put place (some (.file text))

/-- With a file at another path. -/
def move (files : FileSystem) (source target : Path) : Except FileFault FileSystem := do
  let (origin, moved) ← files.slot .busy source
  let (place, present) ← files.slot .busy target
  match moved with
  | none => .error .missing
  | some (.directory _) => .error .isDirectory
  | some (.file text) =>
      refuseIf (source.isSlashed || target.isSlashed) .notDirectory
      refuseIf (present.any Node.isDirectory) .isDirectory
      return (files.put origin none).put place (some (.file text))

/-- An action that leaves the file system as it is if it fails. -/
def change (action : FileSystem → Except FileFault FileSystem) :
    StateM FileSystem (Except FileFault Unit) := fun files =>
  match action files with
  | .ok files => (.ok (), files)
  | .error fault => (.error fault, files)

instance : Files (StateM FileSystem) where
  read path := fun files => (files.read path, files)
  isPresent path := fun files => (files.isPresent path, files)
  isDirectory path := fun files => (files.isDirectory path, files)
  createDirectory path := change (·.createDirectory path)
  write path text := change (·.write path text)
  move source target := change (·.move source target)

end FileSystem

end Specimen
