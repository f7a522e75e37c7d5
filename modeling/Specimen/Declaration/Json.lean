import Specimen.Declaration.Basic
import Specimen.Json.Reader

/-!
# Declarations as JSON

`Declaration.toJson` writes a declaration, `Declaration.ofJson?` reads one. Writing uses one form;
reading is more generous:

* entries may stand in any order, and entries under other names are ignored;
* a record may be an array of its values in the order of its fields, the last of them omitted if
  they have a default;
* a tagged value may be an array with the tag first, and the tag of a type in an array may be its
  number;
* a word without content may be an object whose only entry has the word as its name and no content.

An entry that is not ignored must be the only one under its name. Ignored entries of a declaration
itself need no meaning (`Declaration.lookedAt`).
-/

namespace Specimen

/-! ## Writing -/

/-- A tag beside its content. -/
def Json.tagged (tag : String) (content : Json) : Json :=
  .object [("type", .string tag), ("value", content)]

namespace TypeRef

mutual

/-- The JSON form of a type. -/
def toJson : TypeRef → Json
  | .primitive type => .tagged "primitive" (.string type.keyword)
  | .named name => .tagged "named" (.string name)
  | .generic name args =>
      .tagged "generic" (.object [("name", .string name), ("args", .array (argsToJson args))])
  | .arrayOf element => .tagged "array_of" (toJson element)
  | .unsupported text => .tagged "unsupported" (.string text)
termination_by structural type => type

/-- The JSON forms of type arguments. -/
def argsToJson : List TypeRef → List Json
  | [] => []
  | arg :: args => toJson arg :: argsToJson args
termination_by structural args => args

end

end TypeRef

/-- The JSON form of a field. -/
def Field.toJson (field : Field) : Json :=
  .object [("name", .string field.name), ("ty", field.type.toJson),
    ("optional", .bool field.optional)]

/-- The JSON form of an enumeration literal. -/
def EnumLiteral.toJson : EnumLiteral → Json
  | .string text => .string text
  | .number value => .double value

/-- The JSON form of a member; a member without a value has no entry for it. -/
def EnumMember.toJson (member : EnumMember) : Json :=
  match member.value with
  | none => .object [("name", .string member.name)]
  | some value => .object [("name", .string member.name), ("value", value.toJson)]

/-- The JSON form of the body of a declaration. -/
def DeclarationBody.toJson : DeclarationBody → Json
  | .interface fields =>
      .object [("kind", .string "interface"), ("fields", .array (fields.map Field.toJson))]
  | .alias target => .object [("kind", .string "type_alias"), ("target", target.toJson)]
  | .enumeration members =>
      .object [("kind", .string "enum"), ("members", .array (members.map EnumMember.toJson))]
  | .namespace => .object [("kind", .string "namespace")]

/-- The JSON form of a declaration. -/
def Declaration.toJson (declaration : Declaration) : Json :=
  .object [("name", .string declaration.name), ("kind", declaration.body.toJson)]

/-- The JSON form of a list of declarations. -/
def Declaration.listToJson (declarations : List Declaration) : Json :=
  .array (declarations.map Declaration.toJson)

/-! ## Reading -/

namespace Json

/-- No two entries have the same of some names. -/
def areSingle (names : List String) (entries : List (String × Json)) : Bool :=
  names.all fun name => decide ((entries.filter fun entry => entry.1 == name).length ≤ 1)

/-- The value of a field of a record that is written as an object or as an array. In an array the
values stand in the order of `required ++ optional`, and values of `optional` may be missing at the
end. -/
def recordField? (required optional : List String) : Json → Option (String → Option Json)
  | .object entries =>
      if areSingle (required ++ optional) entries then
        some fun name => Entries.find? name entries
      else none
  | .array items =>
      if required.length ≤ items.length ∧ items.length ≤ required.length + optional.length then
        some fun name => Entries.find? name ((required ++ optional).zip items)
      else none
  | _ => none

/-- A word without content. -/
def word? : Json → Option String
  | .string word => some word
  | .object [(word, .null)] => some word
  | .object [(word, .object [])] => some word
  | _ => none

/-- The tags of types, in the order of their numbers. -/
def typeTags : List String :=
  ["primitive", "named", "generic", "array_of", "unsupported"]

/-- A tag in an array: itself or its number. -/
def tagItem? : Json → Option String
  | .string tag => some tag
  | .integer number => if 0 ≤ number then typeTags[number.toNat]? else none
  | _ => none

/-- A tag and its content. -/
def tagged? : Json → Option (String × Json)
  | .object entries =>
      if areSingle ["type", "value"] entries then
        match (Entries.find? "type" entries).bind word?, Entries.find? "value" entries with
        | some tag, some content => some (tag, content)
        | _, _ => none
      else none
  | .array [tag, content] => (tagItem? tag).map fun tag => (tag, content)
  | _ => none

theorem sizeOf_lt_of_find? {name : String} {value : Json} {entries : List (String × Json)}
    (h : Entries.find? name entries = some value) : sizeOf value < sizeOf entries := by
  induction entries with
  | nil => simp [Entries.find?] at h
  | cons entry rest ih =>
      obtain ⟨key, kept⟩ := entry
      simp only [Entries.find?] at h
      split at h
      · cases h
        simp only [List.cons.sizeOf_spec, Prod.mk.sizeOf_spec]
        omega
      · have := ih h
        simp only [List.cons.sizeOf_spec]
        omega

theorem sizeOf_lt_of_tagged? {json content : Json} {tag : String}
    (h : json.tagged? = some (tag, content)) : sizeOf content < sizeOf json := by
  unfold tagged? at h
  split at h
  · split at h
    · split at h
      · rename_i hcontent
        cases h
        have := sizeOf_lt_of_find? hcontent
        simp only [object.sizeOf_spec]
        omega
      · simp at h
    · simp at h
  · simp only [Option.map_eq_some_iff, Prod.mk.injEq] at h
    obtain ⟨_, -, -, rfl⟩ := h
    simp only [array.sizeOf_spec, List.cons.sizeOf_spec]
    omega
  · simp at h

end Json

namespace TypeRef

/-- The name and the arguments of a generic type. -/
def genericParts? : Json → Option (String × List Json)
  | .object entries =>
      if Json.areSingle ["name", "args"] entries then
        match (Entries.find? "name" entries).bind Json.string?, Entries.find? "args" entries with
        | some name, some (.array args) => some (name, args)
        | _, _ => none
      else none
  | _ => none

theorem sizeOf_lt_of_genericParts? {json : Json} {name : String} {args : List Json}
    (h : genericParts? json = some (name, args)) : sizeOf args < sizeOf json := by
  unfold genericParts? at h
  split at h
  · split at h
    · split at h
      · rename_i hargs
        cases h
        have := Json.sizeOf_lt_of_find? hargs
        simp only [Json.object.sizeOf_spec, Json.array.sizeOf_spec] at *
        omega
      · simp at h
    · simp at h
  · simp at h

mutual

/-- The type of a JSON form. -/
def ofJson? (json : Json) : Option TypeRef :=
  match h : json.tagged? with
  | some ("primitive", content) =>
      (content.word?.bind Primitive.ofKeyword?).map TypeRef.primitive
  | some ("named", content) => content.string?.map TypeRef.named
  | some ("unsupported", content) => content.string?.map TypeRef.unsupported
  | some ("array_of", content) =>
      have := Json.sizeOf_lt_of_tagged? h
      (ofJson? content).map TypeRef.arrayOf
  | some ("generic", content) =>
      match hparts : genericParts? content with
      | some (name, args) =>
          have := Json.sizeOf_lt_of_tagged? h
          have := sizeOf_lt_of_genericParts? hparts
          (argsOfJson? args).map (TypeRef.generic name)
      | none => none
  | _ => none
termination_by sizeOf json

/-- The types of a list of JSON forms. -/
def argsOfJson? : List Json → Option (List TypeRef)
  | [] => some []
  | arg :: args =>
      match ofJson? arg, argsOfJson? args with
      | some arg, some args => some (arg :: args)
      | _, _ => none
termination_by args => sizeOf args

end

end TypeRef

/-- The field of a JSON form. -/
def Field.ofJson? (json : Json) : Option Field := do
  let part? ← json.recordField? ["name", "ty"] ["optional"]
  let name ← (← part? "name").string?
  let type ← TypeRef.ofJson? (← part? "ty")
  let optional ←
    match part? "optional" with
    | none => some false
    | some optional => optional.bool?
  return { name, type, optional }

/-- The enumeration literal of a JSON form; `null` is no literal. -/
def EnumLiteral.ofJson? : Json → Option (Option EnumLiteral)
  | .null => some none
  | .string text => some (some (.string text))
  | json => json.number?.map fun value => some (.number value)

/-- The member of a JSON form. -/
def EnumMember.ofJson? (json : Json) : Option EnumMember := do
  let part? ← json.recordField? ["name"] ["value"]
  let name ← (← part? "name").string?
  let value ←
    match part? "value" with
    | none => some none
    | some value => EnumLiteral.ofJson? value
  return { name, value }

/-- The kind of a declaration, with the values of its parts. -/
def DeclarationBody.kind? : Json → Option (String × Json)
  | .object entries =>
      if Json.areSingle ["kind"] entries then
        ((Entries.find? "kind" entries).bind Json.string?).map fun kind => (kind, .object entries)
      else none
  | .array (kind :: items) => kind.string?.map fun kind => (kind, .array items)
  | _ => none

/-- The body of a JSON form. -/
def DeclarationBody.ofJson? (json : Json) : Option DeclarationBody := do
  match ← DeclarationBody.kind? json with
  | ("interface", parts) =>
      let part? ← parts.recordField? ["fields"] []
      let fields ← (← (← part? "fields").array?).mapM Field.ofJson?
      return .interface fields
  | ("type_alias", parts) =>
      let part? ← parts.recordField? ["target"] []
      return .alias (← TypeRef.ofJson? (← part? "target"))
  | ("enum", parts) =>
      let part? ← parts.recordField? ["members"] []
      let members ← (← (← part? "members").array?).mapM EnumMember.ofJson?
      return .enumeration members
  | ("namespace", parts) =>
      let _ ← parts.recordField? [] []
      return .namespace
  | _ => none

/-- The declaration of a JSON form. -/
def Declaration.ofJson? (json : Json) : Option Declaration := do
  let part? ← json.recordField? ["name", "kind"] []
  let name ← (← part? "name").string?
  let body ← DeclarationBody.ofJson? (← part? "kind")
  return { name, body }

/-- The declarations of a JSON form. -/
def Declaration.listOfJson? (json : Json) : Option (List Declaration) :=
  json.array?.bind fun items => items.mapM Declaration.ofJson?

/-- What is looked at of a written declaration: an entry counts if its name is one of a part, or if
its name has no meaning. -/
def Declaration.lookedAt : Json.Written → Json.Written
  | .object entries =>
      .object (entries.filter fun entry =>
        match Json.decode? entry.1 with
        | none => true
        | some name => ["name", "kind"].contains (String.ofList name))
  | written => written

/-- The declarations of a written JSON form. -/
def Declaration.listOfWritten? : Json.Written → Option (List Declaration)
  | .array items =>
      let looked := Json.Written.array (items.map Declaration.lookedAt)
      (looked.toJson? Json.readDouble Json.nestingLimit).bind Declaration.listOfJson?
  | _ => none

/-- The declarations of a JSON text. -/
def Declaration.listOfText? (text : String) : Option (List Declaration) :=
  (Json.written? text).bind Declaration.listOfWritten?

end Specimen
