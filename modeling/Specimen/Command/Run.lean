import Specimen.Command.Invocation
import Specimen.Command.Listing
import Specimen.Command.LogFilter
import Specimen.Command.Settings
import Specimen.Files.Basic
import Specimen.Generation.Basic
import Specimen.Json.Reader
import Specimen.Random.KeyStream
import Specimen.Reference.Cycle
import Specimen.Source.Document

/-!
# Runs

A run of the program: the settings, the declarations, and then a generation or an inspection. The
steps of a run are done in a fixed order, and the first that fails ends it. A run reads files, and a
generation may write one; everything else that a run does is said by its `Outcome`. Since a run can
be done wherever there are `Files`, it can be done on a `FileSystem`.
-/

namespace Specimen

/-! ## Outcomes -/

/-- What a run cannot go on from. -/
inductive Breakdown where
  /-- A part of the log filter begins or ends inside a character. -/
  | splitCharacter
  /-- As many samples as are asked for, or a text in one, take more bytes than a size can say. -/
  | beyondSizes
  /-- As many samples as are asked for take more bytes than a machine can have. -/
  | beyondMemory
deriving DecidableEq, Repr

/-- Why a run fails. -/
inductive CommandError where
  /-- The words of the command line are no command line. -/
  | usage
  | file (fault : FileFault)
  /-- The options file is no JSON document. -/
  | json
  | settings (fault : SettingsFault)
  /-- No samples are asked for. -/
  | zeroCount
  /-- The path to write to has no file name. -/
  | invalidOutput (path : String)
  | logFilter (text : String)
  | document (error : Source.DocumentError)
  /-- Generation would have no end. -/
  | endless (typeName : String) (cycle : List String)
  | generation (error : GenerationError)
  | breakdown (cause : Breakdown)

/-- The message of an error. -/
def CommandError.message : CommandError → String
  | .usage => "usage"
  | .file fault => "io error: " ++ fault.text
  | .json => "json error: not a JSON document"
  | .settings fault => "config error: " ++ fault.text
  | .zeroCount => "invalid configuration: count must be at least 1"
  | .invalidOutput path => "invalid configuration: invalid output path " ++ path
  | .logFilter text => "logging error: invalid filter '" ++ text ++ "'"
  | .document error => error.text
  | .endless typeName cycle =>
      "type `" ++ typeName ++ "` reaches an unbounded reference cycle: "
        ++ " -> ".intercalate cycle
  | .generation error => error.message
  | .breakdown .splitCharacter => "the log filter cannot be cut inside a character"
  | .breakdown .beyondSizes => "no size for so many bytes"
  | .breakdown .beyondMemory => "no memory for so many samples"

/-- What a run leaves behind, apart from files. -/
structure Outcome where
  /-- The text on the standard output. -/
  printed : String
  error : Option CommandError

namespace Outcome

/-- A text as a line of the output; no text is no line. -/
def lineOf : Option String → String
  | none => ""
  | some text => text ++ "\n"

/-- The outcome of a run that ended with a text to print, with nothing to print or with an error. An
error of generation is printed as a JSON document. -/
def ofResult : Except CommandError (Option String) → Outcome
  | .ok text => ⟨lineOf text, none⟩
  | .error (.generation error) => ⟨lineOf (some error.toJson.compact), some (.generation error)⟩
  | .error error => ⟨"", some error⟩

/-- The exit code. -/
def exitCode (outcome : Outcome) : Nat :=
  match outcome.error with
  | none => 0
  | some .usage => 2
  | some (.breakdown .beyondMemory) => 134
  | some (.breakdown _) => 101
  | some _ => 1

/-- The text on the standard output for errors: nothing for an error that was printed as a document,
and nothing for a breakdown. -/
def complaint? (outcome : Outcome) : Option String :=
  match outcome.error with
  | none | some (.generation _) | some (.breakdown _) => none
  | some error => some error.message

end Outcome

namespace Command

variable {m : Type → Type} [Monad m] [Files m]

/-! ## Steps -/

/-- A step that fails with a fault of a file. -/
def onFiles {α : Type} (action : m (Except FileFault α)) : ExceptT CommandError m α := do
  match ← action with
  | .ok value => return value
  | .error fault => throw (.file fault)

/-- The text of the file at a path. -/
def readText (path : String) : ExceptT CommandError m String :=
  onFiles (Files.read (Path.ofText path))

/-- The settings file that is read if none is named and it is there. -/
def standardSettingsFile : String := "typemock.toml"

/-- The settings that a text gives. -/
def settingsOfText (text : String) : Except CommandError Settings := do
  let settings ← (Settings.ofText text).mapError CommandError.settings
  if settings.count = 0 then throw .zeroCount
  return settings

/-- The settings of a run. -/
def loadSettings (named : Option String) : ExceptT CommandError m Settings := do
  match named with
  | some path => settingsOfText (← readText path)
  | none =>
      if ← Files.isPresent (m := m) (Path.ofText standardSettingsFile) then
        settingsOfText (← readText standardSettingsFile)
      else return .standard

/-- The log filter of the settings is one. -/
def checkLogFilter (settings : Settings) : Except CommandError Unit :=
  match LogFilter.check settings.logFilter with
  | .ok () => .ok ()
  | .error .malformed => .error (.logFilter settings.logFilter)
  | .error .splitCharacter => .error (.breakdown .splitCharacter)

/-- The index of the declarations in a file. -/
def loadIndex (source : String) : ExceptT CommandError m Index := do
  let text ← readText source
  match Source.declarationsOfText text with
  | .ok declarations => return .ofList declarations
  | .error error => throw (.document error)

/-- The options for fields that a text gives. -/
def optionsOfText (text : String) : Except CommandError Options :=
  match Json.read? text with
  | none => .error .json
  | some json =>
      (Options.ofJson json).mapError fun fault => .generation (.invalidOptions fault)

/-- The options for fields in a file, if there is one. -/
def loadOptions (path : Option String) : ExceptT CommandError m Options := do
  match path with
  | none => return .empty
  | some path => optionsOfText (← readText path)

/-- Generation has an end for the type. -/
def checkCycle (index : Index) (typeName : String) : Except CommandError Unit :=
  match index.reachableCycle? typeName with
  | none => .ok ()
  | some cycle => .error (.endless typeName cycle)

/-- How many bytes a sample takes before it is made. -/
def sampleSize : Nat := 32

/-- More bytes than a program can have at once, of which forty-seven bits name one. -/
def memoryLimit : Nat := 0x800000000000

/-- There can be room for a number of samples, for all of which room is made before the first. Room
for the texts in them is looked at when they are drawn (`Leaf.textWithin`), and room for arrays is
not: one that is too long for a size, or for the machine, is made here nevertheless. -/
def checkRoom (count : Nat) : Except CommandError Unit :=
  if greatestSize < count * sampleSize then .error (.breakdown .beyondSizes)
  else if memoryLimit ≤ count * sampleSize then .error (.breakdown .beyondMemory)
  else .ok ()

/-- Generates further samples of a type from a source; `made` holds the samples so far, the last
one first. There are none if the run breaks off in one of them. -/
def generateSamples {σ : Type} [WordSource σ] (index : Index) (typeName : String)
    (options : Options) (made : List Json) :
    (count : Nat) → Watched σ → Except CommandError (List Json)
  | 0, _ => .ok made.reverse
  | count + 1, source =>
      match generate index typeName options source with
      | .error error => .error (.generation error)
      | .ok (sample, source) =>
          if source.brokenOff then .error (.breakdown .beyondSizes)
          else generateSamples index typeName options (sample.toJson :: made) count source

/-- The document of some samples: a single one as it is, and an array of any other number. -/
def sampleDocument : List Json → Json
  | [sample] => sample
  | samples => .array samples

/-- The text of a document. -/
def documentText (pretty : Bool) (document : Json) : String :=
  if pretty then document.pretty else document.compact

/-- Writes the output to the file at a path, in a directory that is made if need be. -/
def writeOutput (path text : String) : ExceptT CommandError m Unit := do
  let target := Path.ofText path
  if let some outer := target.parent? then
    onFiles (Files.createDirectories outer)
  match target.fileName? with
  | none => throw (.invalidOutput path)
  | some name => onFiles (Files.replace target name text)

/-! ## Tasks -/

/-- Generates samples. The answer is the text to print, if it was not written to a file. A seed that
is not given is `entropy`. -/
def generateTask (settings : Settings) (entropy : UInt64) (order : GenerateOrder) :
    ExceptT CommandError m (Option String) := do
  let index ← loadIndex order.source
  checkCycle index order.typeName
  let options ← loadOptions (order.options.or settings.options)
  let count := order.count.getD settings.count
  if count = 0 then throw .zeroCount
  checkRoom count
  let seed := (order.seed.or settings.seed).getD entropy
  let source := Watched.start (KeyStream.ofSeed seed)
  match generateSamples index order.typeName options [] count source with
  | .error error => throw error
  | .ok samples =>
      let text := documentText (order.pretty || settings.pretty) (sampleDocument samples)
      match order.out with
      | none => return some text
      | some path =>
          writeOutput path text
          return none

/-- Lists declarations. -/
def inspectTask (order : InspectOrder) : ExceptT CommandError m (Option String) := do
  let index ← loadIndex order.source
  return some (if order.json then index.listingJson.pretty else index.listingText)

/-- Does a task. -/
def runTask (named : Option String) (entropy : UInt64) (task : Task) :
    ExceptT CommandError m (Option String) := do
  let settings ← loadSettings named
  checkLogFilter settings
  match task with
  | .generate order => generateTask settings entropy order
  | .inspect order => inspectTask order

/-! ## The whole -/

/-- The line of the version. -/
def versionText : String := "typemock 0.1.0"

/-- The lines that say what can be asked for. -/
def helpText : String :=
  "\n".intercalate
    ["Fake data from TypeScript declarations",
      "",
      "Usage: typemock [--config FILE] generate [OPTIONS] --type NAME SOURCE",
      "       typemock [--config FILE] inspect [--json] SOURCE",
      "",
      "Options of generate: --options FILE, --seed N, --count N, --pretty, --out FILE"]

/-- Does what a command line asks for. -/
def run (entropy : UInt64) (words : List String) : m Outcome := do
  match Invocation.ofWords? words with
  | none => return .ofResult (.error .usage)
  | some .help => return .ofResult (.ok (some helpText))
  | some .version => return .ofResult (.ok (some versionText))
  | some (.run named task) => return .ofResult (← (runTask named entropy task).run)

end Command

end Specimen
