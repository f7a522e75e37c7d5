import Specimen.Declaration.Index
import Specimen.Generation.Guard
import Specimen.Generation.Leaf
import Specimen.Options.Json
import Specimen.Reference.Report
import Specimen.Sample.Collection

/-!
# Generation

Making a sample of a declared type. `Generation.ofType` follows the form of a type and calls
`enter` for the declared names in it; `Generation.declared` follows the form of a declaration, and
calls itself as `enter`, with one level of nesting less. So a run ends for every index, and gives up
if declarations nest deeper than it was allowed. `generate` allows what every root needs that
reaches no cycle (`nestingBound`).

A sample counts only if the run has not broken off. A text may break it off (`Leaf.textWithin`).
Arrays and containers never do: the lengths of arrays are not compared with the greatest size.
-/

namespace Specimen

/-- Draws that may be given up. -/
abbrev Attempt (σ α : Type) : Type := StateT σ Option α

/-- Draws that are not given up. -/
def Draw.attempt {σ α : Type} (draw : Draw σ α) : Attempt σ α :=
  fun source => some (draw source)

namespace Generation

/-- The number of insertions of an array or container when nothing is said about it. -/
def defaultLength : Nat := 10

variable {σ : Type} [WordSource σ]

/-! ## Containers -/

/-- Makes entries of a map and puts them in. -/
def mapEntries (key value : Attempt σ Sample) :
    (count : Nat) → List (Sample × Sample) → Attempt σ (List (Sample × Sample))
  | 0, entries => pure entries
  | count + 1, entries => do
      let newKey ← key
      let newValue ← value
      mapEntries key value count (Sample.insertEntry newKey newValue entries)

/-- Makes a value for every member of an enumeration and puts it in under the value of the
member. -/
def enumEntries (value : Attempt σ Sample) :
    List EnumMember → List (Sample × Sample) → Attempt σ (List (Sample × Sample))
  | [], entries => pure entries
  | member :: members, entries => do
      let newValue ← value
      enumEntries value members
        (Sample.insertEntry (Sample.ofEnumLiteral member.resolved) newValue entries)

/-- Makes members of a set and adds them. -/
def setMembers (member : Attempt σ Sample) :
    (count : Nat) → List Sample → Attempt σ (List Sample)
  | 0, members => pure members
  | count + 1, members => do
      let new ← member
      setMembers member count (Sample.insertMember new members)

/-- A container by name, from the actions that make its arguments; an argument that is missing is
`null`. The keys of a map are the members of an enumeration if `enumKeys` has any. Other generic
types are `null`. -/
def container (name : String) (enumKeys : Option (List EnumMember))
    (args : List (Attempt σ Sample)) (length : Nat) : Attempt σ Sample :=
  let first := args[0]?.getD (pure .null)
  let second := args[1]?.getD (pure .null)
  match name with
  | "Map" =>
      match enumKeys with
      | some members => Sample.map <$> enumEntries second members []
      | none => Sample.map <$> mapEntries first second length []
  | "Set" => Sample.set <$> setMembers first length []
  | "Array" => Sample.array <$> gather first length
  | _ => pure .null

/-- The members of the enumeration that the first type argument names. -/
def enumKeys? (index : Index) : List TypeRef → Option (List EnumMember)
  | .named name :: _ => index.enumMembers? name
  | _ => none

/-! ## Types -/

/-- How a declared type is entered. -/
abbrev Enter (σ : Type) : Type := Options → Guard → Declaration → Attempt σ Sample

mutual

/-- A sample of a type. -/
def ofType (index : Index) (enter : Enter σ) (options : Options) (guard : Guard) :
    TypeRef → Attempt σ Sample
  | .primitive type =>
      if guard.isExhausted then pure .undefined else (Leaf.ofPrimitive type).attempt
  | .named name =>
      if guard.isExhausted then pure .undefined
      else
        match index.find? name with
        | some declaration => enter options (guard.descend (.named name)) declaration
        | none => container name none [] defaultLength
  | .generic name args =>
      if guard.isExhausted then pure .undefined
      else
        container name (enumKeys? index args) (ofArgs index enter options guard args)
          defaultLength
  | .arrayOf element =>
      if guard.isExhausted then pure .undefined
      else Sample.array <$> gather (ofType index enter options guard element) defaultLength
  | .unsupported _ => if guard.isExhausted then pure .undefined else pure .null
termination_by structural type => type

/-- The actions that make samples of type arguments. -/
def ofArgs (index : Index) (enter : Enter σ) (options : Options) (guard : Guard) :
    List TypeRef → List (Attempt σ Sample)
  | [] => []
  | arg :: args =>
      ofType index enter options guard arg :: ofArgs index enter options guard args
termination_by structural args => args

end

/-! ## Fields -/

/-- The length of a text that a bound stands for. A bound that is not finite is missing, a negative
one is zero. -/
def lengthBound (bound : Option Float) (default_ : Nat) : Nat :=
  match bound with
  | none => default_
  | some bound =>
      if bound.isFinite then
        if Binary64.isNegative bound then 0
        else min (Binary64.roundedMagnitude bound) (UInt64.size - 1)
      else default_

/-- The array that a rule asks for. It starts anew, without options and with a fresh guard. A type
that is no array and no container gives an array of `null`. -/
def ruleArray (index : Index) (enter : Enter σ) (length : Nat) : TypeRef → Attempt σ Sample
  | .generic name args =>
      container name (enumKeys? index args) (ofArgs index enter .empty .start args) length
  | .named name =>
      if isContainer name then container name none [] length
      else pure (.array (List.replicate length .null))
  | .arrayOf element =>
      Sample.array <$> gather (ofType index enter .empty .start element) length
  | _ => pure (.array (List.replicate length .null))

/-- What a rule generates, before it is overridden. -/
def ruleValue (index : Index) (enter : Enter σ) (rule : FieldRule) (type : TypeRef) :
    Attempt σ Sample :=
  match rule.kind with
  | .string =>
      let draw : Draw σ Sample :=
        Sample.string <$> Leaf.text
          (lengthBound rule.least Leaf.defaultLeastLength)
          (lengthBound rule.greatest Leaf.defaultGreatestLength)
          (rule.alphabet.getD .mixed)
      draw.attempt
  | .integer =>
      let draw : Draw σ Sample :=
        Sample.int <$> Leaf.integer
          (rule.least.getD Leaf.defaultLeast) (rule.greatest.getD Leaf.defaultGreatest)
      draw.attempt
  | .float =>
      let draw : Draw σ Sample :=
        Sample.float <$> Leaf.float
          (rule.least.getD Leaf.defaultLeast) (rule.greatest.getD Leaf.defaultGreatest)
          (rule.places.getD Leaf.defaultPlaces)
      draw.attempt
  | .array => ruleArray index enter (rule.length.getD defaultLength) type

/-- The value of a field. The default is drawn before an override is applied. -/
def fieldValue (index : Index) (enter : Enter σ) (options : Options) (guard : Guard)
    (field : Field) : Attempt σ Sample :=
  match options.find? field.name with
  | some (.rule rule) => do
      let generated ← ruleValue index enter rule field.type
      return match rule.override with
        | some override => override.apply generated
        | none => generated
  | some (.nested entries) => ofType index enter ⟨entries⟩ guard field.type
  | none => ofType index enter options guard field.type

/-- The values of fields, in order, put in under their names. -/
def fieldValues (index : Index) (enter : Enter σ) (options : Options) (guard : Guard) :
    List Field → List (String × Sample) → Attempt σ (List (String × Sample))
  | [], values => pure values
  | field :: fields, values => do
      let value ← fieldValue index enter options guard field
      fieldValues index enter options guard fields (Entries.set field.name value values)

/-! ## Declarations -/

/-- The value of one of the members, or `null` if there is none. -/
def enumValue (members : List EnumMember) : Draw σ Sample :=
  match members with
  | [] => pure .null
  | first :: _ => do
      let place ← Draw.place members.length
      return Sample.ofEnumLiteral (members[place]?.getD first).resolved

/-- A sample of a declaration, with at most `limit` declarations inside each other. Aliases and
namespaces have no fields. -/
def declared (index : Index) : (limit : Nat) → Enter σ
  | 0, _, _, _ => fun _ => none
  | limit + 1, options, guard, declaration =>
      match declaration.body with
      | .interface fields =>
          Sample.object <$>
            fieldValues index (declared index limit) options (guard.inside declaration.name)
              fields []
      | .enumeration members => (enumValue members).attempt
      | .alias _ => pure (.object [])
      | .namespace => pure (.object [])

end Generation

/-! ## The whole -/

/-- Why there is no sample. -/
inductive GenerationError where
  | notFound (name : String)
  | invalidOptions (fault : OptionsFault)
  /-- The declarations nest deeper than the run was allowed. -/
  | tooDeep (name : String)
deriving DecidableEq, Repr

namespace GenerationError

/-- The message of an error. -/
def message : GenerationError → String
  | .notFound name => "type `" ++ name ++ "` not found in declarations"
  | .invalidOptions fault => "invalid options: " ++ fault.message
  | .tooDeep name => "type `" ++ name ++ "` is nested too deeply"

/-- The status code of an error. -/
def code : GenerationError → Nat
  | .notFound _ => 404
  | .invalidOptions _ => 400
  | .tooDeep _ => 500

/-- The JSON form of an error. -/
def toJson (error : GenerationError) : Json :=
  .object [("code", .integer error.code), ("error", .string error.message)]

end GenerationError

/-- How many declarations may be inside each other: for each of the two chains, one under the
options of the caller and one below an array that starts anew, every declaration once and the
repetitions that the guard allows. -/
def nestingBound (index : Index) : Nat :=
  2 * (index.size + Guard.limit)

/-- A sample of a declared type with at most `limit` declarations inside each other. -/
def generateWithin {σ : Type} [WordSource σ] (limit : Nat) (index : Index) (name : String)
    (options : Options) (source : σ) : Except GenerationError (Sample × σ) :=
  match index.find? name with
  | none => .error (.notFound name)
  | some declaration =>
      match Generation.declared index limit options .start declaration source with
      | some result => .ok result
      | none => .error (.tooDeep name)

/-- A sample of a declared type, and the state of the source after it. A watched source says whether
the run has broken off, in which case the sample is a stand-in. -/
def generate {σ : Type} [WordSource σ] (index : Index) (name : String) (options : Options)
    (source : σ) : Except GenerationError (Sample × σ) :=
  generateWithin (nestingBound index) index name options source

end Specimen
