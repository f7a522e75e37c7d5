import Specimen.Files.Path

/-!
# Files

What a command needs of the files around it, and what can be wrong with them. `Files m` says which
actions there are in a monad `m`; a value of `FileSystem` and the files of a machine are two places
to run a command in.

Two actions are made of the others: `createDirectories` makes a directory with everything around
it, and `replace` writes a file in two steps, so that its old text is there until all of the new
text is.
-/

namespace Specimen

/-- Why an action on a file fails. -/
inductive FileFault where
  | missing
  | alreadyExists
  | notDirectory
  | isDirectory
  /-- The path ends in a name that cannot be given or taken away. -/
  | busy
  /-- A name has too many bytes, or the path has. -/
  | nameTooLong
  /-- The path has a character that no name can have. -/
  | invalidName
  /-- Anything else, in the words of the machine. -/
  | other (text : String)
deriving DecidableEq, Repr

/-- The wording of a fault. -/
def FileFault.text : FileFault → String
  | .missing => "No such file or directory (os error 2)"
  | .alreadyExists => "File exists (os error 17)"
  | .notDirectory => "Not a directory (os error 20)"
  | .isDirectory => "Is a directory (os error 21)"
  | .busy => "Device or resource busy (os error 16)"
  | .nameTooLong => "File name too long (os error 36)"
  | .invalidName => "file name contained an unexpected NUL byte"
  | .other text => text

/-- Actions on files. -/
class Files (m : Type → Type) where
  /-- The text of a file. -/
  read : Path → m (Except FileFault String)
  /-- There is a file or directory. -/
  isPresent : Path → m Bool
  isDirectory : Path → m Bool
  /-- Makes a directory inside one that exists. -/
  createDirectory : Path → m (Except FileFault Unit)
  /-- Makes a file with a text, or gives the text to the file that is there. -/
  write : Path → String → m (Except FileFault Unit)
  /-- Gives a file another path, in the place of the file that was there. -/
  move : Path → Path → m (Except FileFault Unit)

namespace Files

variable {m : Type → Type} [Monad m] [Files m]

/-- Makes a directory and, as far as they are missing, the directories around it. That it is
already there is no fault. -/
def createDirectories (path : Path) : m (Except FileFault Unit) := do
  if path.isEmpty then return .ok ()
  match ← createDirectory path with
  | .ok () => return .ok ()
  | .error .missing =>
      match h : path.parent? with
      | none => return .error .missing
      | some outer =>
          have := Path.length_names_lt_of_parent? h
          match ← createDirectories outer with
          | .error fault => return .error fault
          | .ok () => orPresent (← createDirectory path)
  | .error fault => orPresent (.error fault)
termination_by path.names.length
where
  /-- An attempt at making the directory, unless the directory is there. -/
  orPresent (attempt : Except FileFault Unit) : m (Except FileFault Unit) := do
    match attempt with
    | .ok () => return .ok ()
    | .error fault => return if ← isDirectory path then .ok () else .error fault

/-- The name under which the new text of a file is collected. -/
def draftName (name : String) : String :=
  name ++ ".tmp"

/-- Writes a text to a file beside the one of the given path and name, and then moves it there. -/
def replace (path : Path) (name text : String) : m (Except FileFault Unit) := do
  let draft := path.withFileName (draftName name)
  match ← write draft text with
  | .error fault => return .error fault
  | .ok () => move draft path

end Files

end Specimen
