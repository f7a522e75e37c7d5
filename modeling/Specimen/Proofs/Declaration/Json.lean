import Mathlib
import Specimen.Declaration.Json

/-!
# Reading declarations from the form they are written in

Every part of a declaration is read back from its JSON tree: types of any shape, fields, members
with and without a value, the four kinds of bodies, and lists of declarations. This asks nothing of
the numbers, for a tree keeps them as they are. Main statement:
`Declaration.listOfJson?_listToJson`.
-/

namespace Specimen

/-- A tag and its content are found again. -/
theorem Json.tagged?_tagged (tag : String) (content : Json) :
    (Json.tagged tag content).tagged? = some (tag, content) := by
  simp [Json.tagged, Json.tagged?, Json.areSingle, Entries.find?, Json.word?]

/-! ## Types -/

namespace TypeRef

section Tags

variable {json content : Json}

theorem ofJson?_primitive (h : json.tagged? = some ("primitive", content)) :
    ofJson? json = (content.word?.bind Primitive.ofKeyword?).map TypeRef.primitive := by
  rw [ofJson?]
  split <;> simp_all

theorem ofJson?_named (h : json.tagged? = some ("named", content)) :
    ofJson? json = content.string?.map TypeRef.named := by
  rw [ofJson?]
  split <;> simp_all

theorem ofJson?_unsupported (h : json.tagged? = some ("unsupported", content)) :
    ofJson? json = content.string?.map TypeRef.unsupported := by
  rw [ofJson?]
  split <;> simp_all

theorem ofJson?_arrayOf (h : json.tagged? = some ("array_of", content)) :
    ofJson? json = (ofJson? content).map TypeRef.arrayOf := by
  rw [ofJson?]
  split <;> simp_all

theorem ofJson?_generic {name : String} {args : List Json}
    (h : json.tagged? = some ("generic", content))
    (hparts : genericParts? content = some (name, args)) :
    ofJson? json = (argsOfJson? args).map (TypeRef.generic name) := by
  rw [ofJson?]
  split
  all_goals simp_all
  split <;> simp_all

end Tags

theorem genericParts?_object (name : String) (args : List Json) :
    genericParts? (.object [("name", .string name), ("args", .array args)])
      = some (name, args) := by
  simp [genericParts?, Json.areSingle, Entries.find?, Json.string?]

mutual

/-- A type is read back. -/
theorem ofJson?_toJson : (type : TypeRef) → ofJson? type.toJson = some type
  | .primitive type => by
      rw [toJson, ofJson?_primitive (Json.tagged?_tagged _ _)]
      simp [Json.word?, Primitive.ofKeyword?_keyword]
  | .named name => by
      rw [toJson, ofJson?_named (Json.tagged?_tagged _ _)]
      rfl
  | .generic name args => by
      rw [toJson, ofJson?_generic (Json.tagged?_tagged _ _) (genericParts?_object name _),
        argsOfJson?_argsToJson args]
      rfl
  | .arrayOf element => by
      rw [toJson, ofJson?_arrayOf (Json.tagged?_tagged _ _), ofJson?_toJson element]
      rfl
  | .unsupported text => by
      rw [toJson, ofJson?_unsupported (Json.tagged?_tagged _ _)]
      rfl
termination_by structural type => type

/-- Type arguments are read back. -/
theorem argsOfJson?_argsToJson : (args : List TypeRef) →
    argsOfJson? (argsToJson args) = some args
  | [] => by rw [argsToJson, argsOfJson?]
  | arg :: args => by
      rw [argsToJson, argsOfJson?, ofJson?_toJson arg, argsOfJson?_argsToJson args]
termination_by structural args => args

end

end TypeRef

/-! ## Records -/

/-- The fields of a record that is written as an object are found by their names. -/
theorem Json.recordField?_object {required optional : List String}
    {entries : List (String × Json)}
    (h : Json.areSingle (required ++ optional) entries = true) :
    (Json.object entries).recordField? required optional
      = some fun name => Entries.find? name entries :=
  if_pos h

theorem Field.ofJson?_toJson (field : Field) : Field.ofJson? field.toJson = some field := by
  obtain ⟨name, type, optional⟩ := field
  rw [Field.ofJson?, Field.toJson, Json.recordField?_object (by simp [Json.areSingle])]
  simp [Entries.find?, Json.string?, Json.bool?, TypeRef.ofJson?_toJson]

theorem EnumLiteral.ofJson?_toJson (literal : EnumLiteral) :
    EnumLiteral.ofJson? literal.toJson = some (some literal) := by
  cases literal <;> rfl

theorem EnumMember.ofJson?_toJson (member : EnumMember) :
    EnumMember.ofJson? member.toJson = some member := by
  obtain ⟨name, value⟩ := member
  cases value with
  | none =>
      rw [EnumMember.ofJson?, EnumMember.toJson,
        Json.recordField?_object (by simp [Json.areSingle])]
      simp [Entries.find?, Json.string?]
  | some value =>
      rw [EnumMember.ofJson?, EnumMember.toJson,
        Json.recordField?_object (by simp [Json.areSingle])]
      simp [Entries.find?, Json.string?, EnumLiteral.ofJson?_toJson]

/-- What is written one by one is read back one by one. -/
theorem mapM_map_eq_some {α β : Type} {write : α → β} {read? : β → Option α}
    (h : ∀ x, read? (write x) = some x) (xs : List α) : (xs.map write).mapM read? = some xs := by
  induction xs with
  | nil => rfl
  | cons x xs ih => simp [h, ih]

/-! ## Declarations -/

theorem DeclarationBody.ofJson?_toJson (body : DeclarationBody) :
    DeclarationBody.ofJson? body.toJson = some body := by
  cases body with
  | interface fields =>
      have hfields := mapM_map_eq_some Field.ofJson?_toJson fields
      simp [DeclarationBody.ofJson?, DeclarationBody.kind?, DeclarationBody.toJson,
        Json.recordField?, Json.areSingle, Entries.find?, Json.string?, Json.array?, hfields]
  | «alias» target =>
      simp [DeclarationBody.ofJson?, DeclarationBody.kind?, DeclarationBody.toJson,
        Json.recordField?, Json.areSingle, Entries.find?, Json.string?, TypeRef.ofJson?_toJson]
  | enumeration members =>
      have hmembers := mapM_map_eq_some EnumMember.ofJson?_toJson members
      simp [DeclarationBody.ofJson?, DeclarationBody.kind?, DeclarationBody.toJson,
        Json.recordField?, Json.areSingle, Entries.find?, Json.string?, Json.array?, hmembers]
  | «namespace» =>
      simp [DeclarationBody.ofJson?, DeclarationBody.kind?, DeclarationBody.toJson,
        Json.recordField?, Json.areSingle, Entries.find?, Json.string?]

namespace Declaration

theorem ofJson?_toJson (declaration : Declaration) :
    ofJson? declaration.toJson = some declaration := by
  obtain ⟨name, body⟩ := declaration
  rw [ofJson?, toJson, Json.recordField?_object (by simp [Json.areSingle])]
  simp [Entries.find?, Json.string?, DeclarationBody.ofJson?_toJson]

/-- A list of declarations is read back. -/
theorem listOfJson?_listToJson (declarations : List Declaration) :
    listOfJson? (listToJson declarations) = some declarations :=
  mapM_map_eq_some ofJson?_toJson declarations

end Declaration

end Specimen
