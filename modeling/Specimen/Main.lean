import Specimen.Command.Run

/-!
# The program

The command line program: the files of the machine as `Files`, a seed from the machine's random
bytes, and the outcome of the run on the standard streams.
-/

namespace Specimen.Main

/-- The fault of a failed action on a file. -/
def faultOf : IO.Error → FileFault
  | .noFileOrDirectory .. => .missing
  | .noSuchThing .. => .missing
  | .alreadyExists .. => .alreadyExists
  | .inappropriateType _ code _ => if code = 21 then .isDirectory else .notDirectory
  | .resourceBusy .. => .busy
  | .invalidArgument _ 36 _ => .nameTooLong
  | error => .other (toString error)

/-- An action whose failure is a value. -/
def guarded {α : Type} (action : IO α) : IO (Except FileFault α) := do
  try
    return .ok (← action)
  catch error =>
    return .error (faultOf error)

/-- The file at a path is there and is a directory. -/
def isDirectory (path : Path) : IO Bool := do
  try
    let _ ← IO.FS.withFile path.text .read fun handle => handle.read 1
    return false
  catch error =>
    return faultOf error = .isDirectory

instance : Files IO where
  read path := guarded (IO.FS.readFile path.text)
  isPresent path := do
    match ← guarded (IO.FS.readFile path.text) with
    | .error .missing => return false
    | _ => return true
  isDirectory
  createDirectory path := guarded (IO.FS.createDir path.text)
  write path text := guarded (IO.FS.writeFile path.text text)
  move source target := guarded (IO.FS.rename source.text target.text)

end Specimen.Main

/-- Runs the command line. -/
def main (words : List String) : IO UInt32 := do
  let bytes ← IO.getRandomBytes 8
  let entropy := bytes.foldl (fun seed byte => seed * 256 + byte.toUInt64) (0 : UInt64)
  let outcome : Specimen.Outcome ← Specimen.Command.run (m := IO) entropy words
  IO.print outcome.printed
  if let some complaint := outcome.complaint? then
    IO.eprintln ("error: " ++ complaint)
  return UInt32.ofNat outcome.exitCode
