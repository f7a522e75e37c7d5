import Specimen.Sample.Basic

/-!
# Options

What a caller may say about the values of fields. A rule replaces the generation of one field; a
nested bag of options replaces the options for everything below a field. Options go by field name
alone: they reach every field of that name below the place where they apply.
-/

namespace Specimen

/-- The characters that generated texts are made of. -/
inductive Alphabet where
  /-- Latin letters and digits. -/
  | latin
  /-- Chinese characters. -/
  | ideographs
  /-- One of the two, chosen anew for each text. -/
  | mixed
deriving DecidableEq, Repr

namespace Alphabet

/-- The alphabet of a language code. -/
def ofCode? : String → Option Alphabet
  | "en" => some .latin
  | "zh" => some .ideographs
  | "zh_en" => some .mixed
  | _ => none

/-- The language code of an alphabet. -/
def code : Alphabet → String
  | .latin => "en"
  | .ideographs => "zh"
  | .mixed => "zh_en"

theorem ofCode?_code (alphabet : Alphabet) : ofCode? alphabet.code = some alphabet := by
  cases alphabet <;> rfl

end Alphabet

/-- What a rule generates. -/
inductive RuleKind where
  | string
  | integer
  | float
  | array
deriving DecidableEq, Repr

namespace RuleKind

/-- The kind of a name. -/
def ofName? : String → Option RuleKind
  | "string" => some .string
  | "number" => some .integer
  | "number_float" => some .float
  | "array" => some .array
  | _ => none

/-- The name of a kind. -/
def name : RuleKind → String
  | .string => "string"
  | .integer => "number"
  | .float => "number_float"
  | .array => "array"

theorem ofName?_name (kind : RuleKind) : ofName? kind.name = some kind := by
  cases kind <;> rfl

end RuleKind

/-- What becomes of a value that a rule has generated. -/
inductive Override where
  /-- The literal takes its place, if the literal is true. -/
  | literal (value : Sample)
  | compute (function : Sample → Sample)

/-- The final value. -/
def Override.apply (override : Override) (generated : Sample) : Sample :=
  match override with
  | .literal value => if value.isTruthy then value else generated
  | .compute function => function generated

/-- How to generate one field. -/
structure FieldRule where
  kind : RuleKind
  least : Option Float
  greatest : Option Float
  /-- Decimal places of a float. -/
  places : Option Nat
  alphabet : Option Alphabet
  /-- Number of insertions of an array or container. -/
  length : Option Nat
  override : Option Override

/-- What the options say about one field name. -/
inductive FieldOption where
  /-- Options that take the place of the inherited ones below the field. -/
  | nested (entries : List (String × FieldOption))
  | rule (rule : FieldRule)

/-- What a caller says about fields, by name. -/
structure Options where
  entries : List (String × FieldOption)

namespace Options

/-- Options that say nothing. -/
def empty : Options := ⟨[]⟩

/-- What the options say about a field name. -/
def find? (options : Options) (field : String) : Option FieldOption :=
  Entries.find? field options.entries

/-- How many field names the options mention. -/
def size (options : Options) : Nat :=
  options.entries.length

end Options

end Specimen
