import Specimen.Options.Basic
import Specimen.Sample.Json

/-!
# Options as JSON

Options are an object with one entry a field. An entry with the key `type` is a rule, any other
object is a nested bag of options. `Options.ofJson` refuses everything else and names the first
offending place: entries are looked at in the order of the tree, and what is inside an entry before
what follows it. Within a rule every key is looked at first, then whether the type is there, then
the type, then the language.
-/

namespace Specimen

/-- What is wrong with options. -/
inductive OptionsCause where
  | notObject
  | unknownKey (key : String)
  | invalidValue (key : String)
  | missingKey (key : String)
  | unknownType (name : String)
  | unknownLanguage (code : String)
deriving DecidableEq, Repr

/-- What is wrong with options, and where. -/
structure OptionsFault where
  path : String
  cause : OptionsCause
deriving DecidableEq, Repr

namespace OptionsFault

/-- The wording of a cause. -/
def causeText : OptionsCause → String
  | .notObject => "expected a JSON object"
  | .unknownKey key => "unknown key '" ++ key ++ "'"
  | .invalidValue key => "invalid value for key '" ++ key ++ "'"
  | .missingKey key => "missing required key '" ++ key ++ "'"
  | .unknownType name => "unknown type '" ++ name ++ "'"
  | .unknownLanguage code => "unknown language '" ++ code ++ "'"

/-- The message of a fault. -/
def message (fault : OptionsFault) : String :=
  fault.path ++ ": " ++ causeText fault.cause

end OptionsFault

/-- What the value of a key of a rule has to be. -/
inductive ParameterKind where
  /-- An integer from zero that fits thirty-two bits. -/
  | count
  /-- A finite number. -/
  | number
  | text
  | any
deriving DecidableEq, Repr

/-- The value is of the kind. -/
def ParameterKind.admits : ParameterKind → Json → Bool
  | .count, json => json.natural?.any fun n => decide (n < UInt32.size)
  | .number, json => json.number?.any Float.isFinite
  | .text, json => json.string?.isSome
  | .any, _ => true

namespace FieldRule

/-- The keys of a rule and the kinds of their values. -/
def parameters : List (String × ParameterKind) :=
  [("type", .text), ("min", .number), ("max", .number), ("fixed", .count), ("language", .text),
    ("length", .count), ("value", .any)]

/-- The first key of a rule that is unknown or has a value of the wrong kind. -/
def firstBadKey? : List (String × Json) → Option OptionsCause
  | [] => none
  | (key, value) :: entries =>
      match Entries.find? key parameters with
      | none => some (.unknownKey key)
      | some kind => if kind.admits value then firstBadKey? entries else some (.invalidValue key)

/-- The rule of an object whose keys and values are in order. -/
def ofEntries (entries : List (String × Json)) : Except OptionsCause FieldRule := do
  let text (key : String) := (Entries.find? key entries).bind Json.string?
  let number (key : String) := (Entries.find? key entries).bind Json.number?
  let count (key : String) := (Entries.find? key entries).bind Json.natural?
  let name ← ((text "type").map Except.ok).getD (.error (.missingKey "type"))
  let kind ← ((RuleKind.ofName? name).map Except.ok).getD (.error (.unknownType name))
  let alphabet ←
    match text "language" with
    | none => .ok none
    | some code =>
        match Alphabet.ofCode? code with
        | some alphabet => .ok (some alphabet)
        | none => .error (.unknownLanguage code)
  return {
    kind
    least := number "min"
    greatest := number "max"
    places := count "fixed"
    alphabet
    length := count "length"
    override := (Entries.find? "value" entries).map fun value => .literal (Sample.ofJson value) }

/-- The rule of a JSON object at a path. -/
def ofObject (path : String) (entries : List (String × Json)) : Except OptionsFault FieldRule :=
  match firstBadKey? entries with
  | some cause => .error ⟨path, cause⟩
  | none => (ofEntries entries).mapError fun cause => ⟨path, cause⟩

/-- The rule of a JSON tree. -/
def ofJson : Json → Except OptionsFault FieldRule
  | .object entries => ofObject "custom" entries
  | _ => .error ⟨"custom", .notObject⟩

end FieldRule

namespace Options

/-- The options of the entries of a JSON object at a path. -/
def entriesOfJson (path : String) :
    List (String × Json) → Except OptionsFault (List (String × FieldOption))
  | [] => .ok []
  | (field, .object entries) :: rest => do
      let inner := path ++ "." ++ field
      let option ←
        if (Entries.find? "type" entries).isSome then
          (FieldRule.ofObject inner entries).map FieldOption.rule
        else
          (entriesOfJson inner entries).map FieldOption.nested
      let others ← entriesOfJson path rest
      return (field, option) :: others
  | (field, _) :: _ => .error ⟨path ++ "." ++ field, .notObject⟩

/-- The options of a JSON tree. -/
def ofJson : Json → Except OptionsFault Options
  | .object entries => (entriesOfJson "options" entries).map Options.mk
  | _ => .error ⟨"options", .notObject⟩

end Options

end Specimen
