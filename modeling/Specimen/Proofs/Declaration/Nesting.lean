import Mathlib
import Specimen.Declaration.Json
import Specimen.Proofs.Entries
import Specimen.Proofs.Json.Nesting

/-!
# How deep declarations are written

The form that declarations are written in has no more levels than any form that they are read from
(`Declaration.levels_listToJson_le`): where reading is generous, it never finds a declaration in a
flatter tree. The numbers of enumerations come from the numbers of the tree
(`Declaration.isFinite_of_mem_numbers`). If they are finite and have texts that stand for them, what
is written is legible (`Declaration.legible_listToJson`).
-/

namespace Specimen

/-! ## Parts of trees -/

namespace Json

/-- A tree that is found in another one: it has fewer levels, and its numbers are among those of the
other one. -/
structure Inside (part json : Json) : Prop where
  levels_lt : part.levels < json.levels
  writable : json.Writable → part.Writable

theorem inside_array {item : Json} {items : List Json} (h : item ∈ items) :
    item.Inside (.array items) where
  levels_lt := levels_lt_of_mem_array h
  writable := fun hwritable => writable_array_iff.mp hwritable item h

theorem inside_object {name : String} {value : Json} {entries : List (String × Json)}
    (h : Entries.find? name entries = some value) : value.Inside (.object entries) where
  levels_lt := levels_lt_of_mem_object (Entries.mem_of_find? h)
  writable := fun hwritable => writable_object_iff.mp hwritable _ (Entries.mem_of_find? h)

theorem mem_of_find?_zip {names : List String} {items : List Json} {name : String} {value : Json}
    (h : Entries.find? name (names.zip items) = some value) : value ∈ items :=
  (List.of_mem_zip (Entries.mem_of_find? h)).2

/-- The value of a field is found in the record. -/
theorem inside_of_recordField? {required optional : List String} {json value : Json}
    {part? : String → Option Json} {name : String}
    (h : json.recordField? required optional = some part?) (hpart : part? name = some value) :
    value.Inside json := by
  unfold recordField? at h
  split at h
  · split at h
    · cases h
      exact inside_object hpart
    · cases h
  · split at h
    · cases h
      exact inside_array (mem_of_find?_zip hpart)
    · cases h
  · cases h

/-- A record is an object or an array. -/
theorem levels_pos_of_recordField? {required optional : List String} {json : Json}
    {part? : String → Option Json} (h : json.recordField? required optional = some part?) :
    0 < json.levels := by
  unfold recordField? at h
  split at h
  · exact Nat.succ_pos _
  · exact Nat.succ_pos _
  · cases h

/-- The content of a tag is found beside it. -/
theorem inside_of_tagged? {json content : Json} {tag : String}
    (h : json.tagged? = some (tag, content)) : content.Inside json := by
  unfold tagged? at h
  split at h
  · split at h
    · split at h
      · rename_i hcontent
        cases h
        exact inside_object hcontent
      · cases h
    · cases h
  · obtain ⟨_, -, heq⟩ := Option.map_eq_some_iff.mp h
    cases heq
    exact inside_array (by simp)
  · cases h

theorem levels_tagged (tag : String) (content : Json) :
    (tagged tag content).levels = content.levels + 1 := by
  simp [tagged, levels, entriesLevels]

theorem legible_tagged {toDouble : Decimal.Numeral → Float} {tag : String} {content : Json}
    (h : content.Legible toDouble) : (tagged tag content).Legible toDouble := by
  simp [tagged, h]

end Json

variable {toDouble : Decimal.Numeral → Float}

/-! ## Types -/

namespace TypeRef

theorem levels_of_genericParts? {json : Json} {name : String} {args : List Json}
    (h : genericParts? json = some (name, args)) : (Json.array args).levels < json.levels := by
  unfold genericParts? at h
  split at h
  · split at h
    · split at h
      · rename_i hargs
        cases h
        exact (Json.inside_object hargs).levels_lt
      · cases h
    · cases h
  · cases h

/-- A type is read from a tag and a content, and the parts of the type from the content. -/
theorem exists_tagged?_of_ofJson? {json : Json} {type : TypeRef} (h : ofJson? json = some type) :
    ∃ tag content, json.tagged? = some (tag, content)
      ∧ ((∃ keyword, type = .primitive keyword) ∨ (∃ name, type = .named name)
        ∨ (∃ text, type = .unsupported text)
        ∨ (∃ element, type = .arrayOf element ∧ ofJson? content = some element)
        ∨ ∃ name args forms, type = .generic name args
          ∧ genericParts? content = some (name, forms) ∧ argsOfJson? forms = some args) := by
  rw [ofJson?] at h
  split at h
  · rename_i htagged
    obtain ⟨keyword, -, rfl⟩ := Option.map_eq_some_iff.mp h
    exact ⟨_, _, htagged, .inl ⟨keyword, rfl⟩⟩
  · rename_i htagged
    obtain ⟨name, -, rfl⟩ := Option.map_eq_some_iff.mp h
    exact ⟨_, _, htagged, .inr (.inl ⟨name, rfl⟩)⟩
  · rename_i htagged
    obtain ⟨text, -, rfl⟩ := Option.map_eq_some_iff.mp h
    exact ⟨_, _, htagged, .inr (.inr (.inl ⟨text, rfl⟩))⟩
  · rename_i htagged
    obtain ⟨element, helement, rfl⟩ := Option.map_eq_some_iff.mp h
    exact ⟨_, _, htagged, .inr (.inr (.inr (.inl ⟨element, rfl, helement⟩)))⟩
  · rename_i htagged
    split at h
    · rename_i hparts
      obtain ⟨args, hargs, rfl⟩ := Option.map_eq_some_iff.mp h
      exact ⟨_, _, htagged, .inr (.inr (.inr (.inr ⟨_, args, _, rfl, hparts, hargs⟩)))⟩
    · cases h
  · cases h

mutual

/-- A type is written with no more levels than it is read from. -/
theorem levels_toJson_le : (type : TypeRef) → ∀ {json : Json}, ofJson? json = some type →
    type.toJson.levels ≤ json.levels
  | .primitive type, json, h => by
      obtain ⟨tag, content, htagged, -⟩ := exists_tagged?_of_ofJson? h
      rw [toJson, Json.levels_tagged]
      exact Nat.lt_of_le_of_lt (Nat.zero_le _) (Json.inside_of_tagged? htagged).levels_lt
  | .named name, json, h => by
      obtain ⟨tag, content, htagged, -⟩ := exists_tagged?_of_ofJson? h
      rw [toJson, Json.levels_tagged]
      exact Nat.lt_of_le_of_lt (Nat.zero_le _) (Json.inside_of_tagged? htagged).levels_lt
  | .generic name args, json, h => by
      obtain ⟨tag, content, htagged, hcases⟩ := exists_tagged?_of_ofJson? h
      obtain ⟨forms, hparts, hargs⟩ : ∃ forms, genericParts? content = some (name, forms)
          ∧ argsOfJson? forms = some args := by
        simpa using hcases
      have hcontent := (Json.inside_of_tagged? htagged).levels_lt
      have hforms := levels_of_genericParts? hparts
      have hargs := levels_argsToJson_le args hargs
      rw [toJson, Json.levels_tagged]
      simp only [Json.levels, Json.entriesLevels] at hforms ⊢
      omega
  | .arrayOf element, json, h => by
      obtain ⟨tag, content, htagged, hcases⟩ := exists_tagged?_of_ofJson? h
      have helement : ofJson? content = some element := by simpa using hcases
      rw [toJson, Json.levels_tagged]
      exact Nat.lt_of_le_of_lt (levels_toJson_le element helement)
        (Json.inside_of_tagged? htagged).levels_lt
  | .unsupported text, json, h => by
      obtain ⟨tag, content, htagged, -⟩ := exists_tagged?_of_ofJson? h
      rw [toJson, Json.levels_tagged]
      exact Nat.lt_of_le_of_lt (Nat.zero_le _) (Json.inside_of_tagged? htagged).levels_lt
termination_by structural type => type

/-- The same for type arguments. -/
theorem levels_argsToJson_le : (args : List TypeRef) → ∀ {forms : List Json},
    argsOfJson? forms = some args → Json.itemsLevels (argsToJson args) ≤ Json.itemsLevels forms
  | [], forms, _ => Nat.zero_le _
  | arg :: args, [], h => by
      rw [argsOfJson?] at h
      cases h
  | arg :: args, form :: forms, h => by
      rw [argsOfJson?] at h
      split at h
      · rename_i harg hargs
        cases h
        exact max_le_max (levels_toJson_le arg harg) (levels_argsToJson_le args hargs)
      · cases h
termination_by structural args => args

end

mutual

/-- There are no numbers in the form of a type. -/
theorem legible_toJson : (type : TypeRef) → type.toJson.Legible toDouble
  | .primitive type => Json.legible_tagged (.string _)
  | .named name => Json.legible_tagged (.string name)
  | .generic name args =>
      Json.legible_tagged (by simpa using legible_argsToJson args)
  | .arrayOf element => Json.legible_tagged (legible_toJson element)
  | .unsupported text => Json.legible_tagged (.string text)
termination_by structural type => type

/-- The same for type arguments. -/
theorem legible_argsToJson :
    (args : List TypeRef) → ∀ form ∈ argsToJson args, form.Legible toDouble
  | [] => by simp [argsToJson]
  | arg :: args =>
      List.forall_mem_cons.mpr ⟨legible_toJson arg, legible_argsToJson args⟩
termination_by structural args => args

end

end TypeRef

/-! ## Fields and members -/

theorem Field.levels_toJson_le {json : Json} {field : Field} (h : Field.ofJson? json = some field) :
    field.toJson.levels ≤ json.levels := by
  simp only [Field.ofJson?, Option.bind_eq_bind, Option.bind_eq_some_iff] at h
  obtain ⟨part?, hrecord, _, -, name, -, form, hform, type, htype, hoptional⟩ := h
  have hfield : field.type = type := by
    split at hoptional
    · cases hoptional
      rfl
    · obtain ⟨optional, -, hfield⟩ := Option.bind_eq_some_iff.mp hoptional
      cases hfield
      rfl
  have hlevels := Nat.lt_of_le_of_lt (type.levels_toJson_le htype)
    (Json.inside_of_recordField? hrecord hform).levels_lt
  rw [← hfield] at hlevels
  simp only [Field.toJson, Json.levels, Json.entriesLevels]
  omega

theorem Field.legible_toJson (field : Field) : field.toJson.Legible toDouble := by
  simp [Field.toJson, field.type.legible_toJson]

/-- The number that a member is given. -/
def EnumMember.number? (member : EnumMember) : Option Float :=
  match member.value with
  | some (.number value) => some value
  | _ => none

theorem EnumMember.levels_toJson (member : EnumMember) : member.toJson.levels = 1 := by
  obtain ⟨name, value⟩ := member
  match value with
  | none => rfl
  | some (.string text) => rfl
  | some (.number value) => rfl

theorem EnumMember.levels_toJson_le {json : Json} {member : EnumMember}
    (h : EnumMember.ofJson? json = some member) : member.toJson.levels ≤ json.levels := by
  simp only [EnumMember.ofJson?, Option.bind_eq_bind, Option.bind_eq_some_iff] at h
  obtain ⟨part?, hrecord, -⟩ := h
  rw [member.levels_toJson]
  exact Json.levels_pos_of_recordField? hrecord

/-- The number of a member is a number of the tree. -/
theorem EnumMember.isFinite_of_number? {json : Json} {member : EnumMember} {value : Float}
    (h : EnumMember.ofJson? json = some member) (hwritable : json.Writable)
    (hvalue : member.number? = some value) : value.isFinite = true := by
  simp only [EnumMember.ofJson?, Option.bind_eq_bind, Option.bind_eq_some_iff] at h
  obtain ⟨part?, hrecord, _, -, name, -, hmember⟩ := h
  split at hmember
  · cases hmember
    cases hvalue
  · rename_i form hform
    have hinside := Json.inside_of_recordField? hrecord hform
    obtain ⟨literal, hliteral, hmember⟩ := Option.bind_eq_some_iff.mp hmember
    obtain rfl := Option.some.inj hmember
    unfold EnumLiteral.ofJson? at hliteral
    split at hliteral
    · cases hliteral
      cases hvalue
    · cases hliteral
      cases hvalue
    · obtain ⟨number, hnumber, rfl⟩ := Option.map_eq_some_iff.mp hliteral
      cases hvalue
      exact (hinside.writable hwritable).isFinite_of_number? hnumber

theorem EnumMember.legible_toJson {member : EnumMember}
    (h : ∀ value ∈ member.number?, value.isFinite = true ∧ Json.Reproduces toDouble value) :
    member.toJson.Legible toDouble := by
  obtain ⟨name, value⟩ := member
  match value with
  | none => simp [EnumMember.toJson]
  | some (.string text) => simp [EnumMember.toJson, EnumLiteral.toJson]
  | some (.number value) => simpa [EnumMember.toJson, EnumLiteral.toJson] using h value rfl

/-! ## Declarations -/

/-- A list that is read item by item has every item from one of the forms. -/
theorem exists_mem_of_mapM {α β : Type} {read? : α → Option β} {forms : List α} {values : List β}
    (h : forms.mapM read? = some values) :
    ∀ value ∈ values, ∃ form ∈ forms, read? form = some value := by
  induction forms generalizing values with
  | nil =>
      cases h
      simp
  | cons form forms ih =>
      simp only [List.mapM_cons, Option.bind_eq_bind, Option.bind_eq_some_iff] at h
      obtain ⟨first, hfirst, more, hmore, heq⟩ := h
      obtain rfl := Option.some.inj heq
      refine List.forall_mem_cons.mpr ⟨⟨form, List.mem_cons_self, hfirst⟩, fun value hvalue => ?_⟩
      obtain ⟨other, hother, hread⟩ := ih hmore value hvalue
      exact ⟨other, List.mem_cons_of_mem _ hother, hread⟩

theorem Json.array_of_array? {json : Json} {items : List Json} (h : json.array? = some items) :
    json = .array items := by
  cases json with
  | array _ =>
      cases h
      rfl
  | _ => cases h

/-- Forms that are read from the items of an array are written with no more levels than the array
has. -/
theorem levels_array_map_le {α : Type} {write : α → Json} {read? : Json → Option α}
    (hlevels : ∀ {form value}, read? form = some value → (write value).levels ≤ form.levels)
    {items : List Json} {values : List α} (h : items.mapM read? = some values) :
    (Json.array (values.map write)).levels ≤ (Json.array items).levels := by
  refine Json.levels_array_le_iff.mpr fun form hform => ?_
  obtain ⟨value, hvalue, rfl⟩ := List.mem_map.mp hform
  obtain ⟨item, hitem, hread⟩ := exists_mem_of_mapM h value hvalue
  exact Nat.le_trans (hlevels hread) (Nat.lt_succ_iff.mp (Json.levels_lt_of_mem_array hitem))

namespace DeclarationBody

/-- The parts of a body have no more levels than the body. -/
theorem of_kind? {json parts : Json} {kind : String} (h : kind? json = some (kind, parts)) :
    parts.levels ≤ json.levels ∧ (json.Writable → parts.Writable) := by
  unfold kind? at h
  split at h
  · split at h
    · obtain ⟨_, -, heq⟩ := Option.map_eq_some_iff.mp h
      cases heq
      exact ⟨Nat.le_refl _, id⟩
    · cases h
  · obtain ⟨_, -, heq⟩ := Option.map_eq_some_iff.mp h
    cases heq
    refine ⟨Nat.succ_le_succ (Nat.le_max_right _ _), fun hwritable => ?_⟩
    simp_all
  · cases h

/-- The numbers that the members of an enumeration are given. -/
def numbers : DeclarationBody → List Float
  | .enumeration members => members.filterMap EnumMember.number?
  | _ => []

/-- The form that a body is read from: the parts of its kind. -/
theorem exists_parts_of_ofJson? {json : Json} {body : DeclarationBody}
    (h : ofJson? json = some body) :
    ∃ parts : Json, (parts.levels ≤ json.levels ∧ (json.Writable → parts.Writable))
      ∧ ((∃ items fields, (Json.array items).Inside parts ∧ items.mapM Field.ofJson? = some fields
          ∧ body = .interface fields)
        ∨ (∃ form target, form.Inside parts ∧ TypeRef.ofJson? form = some target
          ∧ body = .alias target)
        ∨ (∃ items members, (Json.array items).Inside parts
          ∧ items.mapM EnumMember.ofJson? = some members ∧ body = .enumeration members)
        ∨ (0 < parts.levels ∧ body = .namespace)) := by
  simp only [ofJson?, Option.bind_eq_bind, Option.bind_eq_some_iff] at h
  obtain ⟨⟨kind, parts⟩, hkind, h⟩ := h
  refine ⟨parts, of_kind? hkind, ?_⟩
  split at h
  · simp only [Option.bind_eq_some_iff] at h
    obtain ⟨part?, hrecord, form, hform, items, hitems, fields, hfields, heq⟩ := h
    obtain rfl := Json.array_of_array? hitems
    rename_i hparts
    cases hparts
    exact .inl ⟨items, fields, Json.inside_of_recordField? hrecord hform, hfields,
      (Option.some.inj heq).symm⟩
  · simp only [Option.bind_eq_some_iff] at h
    obtain ⟨part?, hrecord, form, hform, target, htarget, heq⟩ := h
    rename_i hparts
    cases hparts
    exact .inr (.inl ⟨form, target, Json.inside_of_recordField? hrecord hform, htarget,
      (Option.some.inj heq).symm⟩)
  · simp only [Option.bind_eq_some_iff] at h
    obtain ⟨part?, hrecord, form, hform, items, hitems, members, hmembers, heq⟩ := h
    obtain rfl := Json.array_of_array? hitems
    rename_i hparts
    cases hparts
    exact .inr (.inr (.inl ⟨items, members, Json.inside_of_recordField? hrecord hform, hmembers,
      (Option.some.inj heq).symm⟩))
  · simp only [Option.bind_eq_some_iff] at h
    obtain ⟨part?, hrecord, heq⟩ := h
    rename_i hparts
    cases hparts
    exact .inr (.inr (.inr ⟨Json.levels_pos_of_recordField? hrecord, (Option.some.inj heq).symm⟩))
  · cases h

/-- A body is written with no more levels than it is read from. -/
theorem levels_toJson_le {json : Json} {body : DeclarationBody} (h : ofJson? json = some body) :
    body.toJson.levels ≤ json.levels := by
  obtain ⟨parts, ⟨hparts, -⟩, hcases⟩ := exists_parts_of_ofJson? h
  refine Nat.le_trans ?_ hparts
  rcases hcases with ⟨items, fields, hinside, hfields, rfl⟩ | ⟨form, target, hinside, htarget, rfl⟩
    | ⟨items, members, hinside, hmembers, rfl⟩ | ⟨hpos, rfl⟩
  · have hle := levels_array_map_le Field.levels_toJson_le hfields
    have hlt := hinside.levels_lt
    simp only [toJson, Json.levels, Json.entriesLevels] at hle hlt ⊢
    omega
  · have hle := target.levels_toJson_le htarget
    have hlt := hinside.levels_lt
    simp only [toJson, Json.levels, Json.entriesLevels]
    omega
  · have hle := levels_array_map_le EnumMember.levels_toJson_le hmembers
    have hlt := hinside.levels_lt
    simp only [toJson, Json.levels, Json.entriesLevels] at hle hlt ⊢
    omega
  · exact hpos

/-- The numbers of a body that is read are numbers of the tree. -/
theorem isFinite_of_mem_numbers {json : Json} {body : DeclarationBody}
    (h : ofJson? json = some body) (hwritable : json.Writable) :
    ∀ value ∈ body.numbers, value.isFinite = true := by
  obtain ⟨parts, ⟨-, hparts⟩, hcases⟩ := exists_parts_of_ofJson? h
  rcases hcases with ⟨items, fields, -, -, rfl⟩ | ⟨form, target, -, -, rfl⟩
    | ⟨items, members, hinside, hmembers, rfl⟩ | ⟨-, rfl⟩
  · simp [numbers]
  · simp [numbers]
  · intro value hvalue
    obtain ⟨member, hmember, hnumber⟩ := List.mem_filterMap.mp hvalue
    obtain ⟨form, hform, hread⟩ := exists_mem_of_mapM hmembers member hmember
    have hitems := Json.writable_array_iff.mp (hinside.writable (hparts hwritable))
    exact EnumMember.isFinite_of_number? hread (hitems form hform) hnumber
  · simp [numbers]

/-- With legible numbers what is written is legible. -/
theorem legible_toJson {body : DeclarationBody}
    (h : ∀ value ∈ body.numbers, value.isFinite = true ∧ Json.Reproduces toDouble value) :
    body.toJson.Legible toDouble := by
  cases body with
  | interface fields => simp [toJson, Field.legible_toJson]
  | «alias» target => simp [toJson, target.legible_toJson]
  | enumeration members =>
      have hmembers : ∀ member ∈ members, member.toJson.Legible toDouble :=
        fun member hmember => EnumMember.legible_toJson fun value hvalue =>
          h value (List.mem_filterMap.mpr ⟨member, hmember, hvalue⟩)
      simpa [toJson] using hmembers
  | «namespace» => simp [toJson]

end DeclarationBody

namespace Declaration

/-- The numbers that a declaration gives to members of an enumeration. -/
def numbers (declaration : Declaration) : List Float :=
  declaration.body.numbers

/-- A declaration is read from a name and the form of its body. -/
theorem exists_body_of_ofJson? {json : Json} {declaration : Declaration}
    (h : ofJson? json = some declaration) :
    ∃ form : Json, form.Inside json ∧ DeclarationBody.ofJson? form = some declaration.body := by
  simp only [ofJson?, Option.bind_eq_bind, Option.bind_eq_some_iff] at h
  obtain ⟨part?, hrecord, _, -, name, -, form, hform, body, hbody, heq⟩ := h
  obtain rfl := Option.some.inj heq
  exact ⟨form, Json.inside_of_recordField? hrecord hform, hbody⟩

theorem levels_toJson_le {json : Json} {declaration : Declaration}
    (h : ofJson? json = some declaration) : declaration.toJson.levels ≤ json.levels := by
  obtain ⟨form, hinside, hbody⟩ := exists_body_of_ofJson? h
  have hle := DeclarationBody.levels_toJson_le hbody
  have hlt := hinside.levels_lt
  simp only [toJson, Json.levels, Json.entriesLevels]
  omega

theorem legible_toJson {declaration : Declaration}
    (h : ∀ value ∈ declaration.numbers, value.isFinite = true ∧ Json.Reproduces toDouble value) :
    declaration.toJson.Legible toDouble := by
  simp [toJson, DeclarationBody.legible_toJson h]

variable {json : Json} {declarations : List Declaration}

/-- Declarations are written with no more levels than they are read from. -/
theorem levels_listToJson_le (h : listOfJson? json = some declarations) :
    (listToJson declarations).levels ≤ json.levels := by
  obtain ⟨items, hitems, hread⟩ := Option.bind_eq_some_iff.mp h
  obtain rfl := Json.array_of_array? hitems
  exact levels_array_map_le levels_toJson_le hread

/-- The numbers of declarations that are read are numbers of the tree. -/
theorem isFinite_of_mem_numbers (h : listOfJson? json = some declarations)
    (hwritable : json.Writable) :
    ∀ declaration ∈ declarations, ∀ value ∈ declaration.numbers, value.isFinite = true := by
  obtain ⟨items, hitems, hread⟩ := Option.bind_eq_some_iff.mp h
  obtain rfl := Json.array_of_array? hitems
  intro declaration hdeclaration
  obtain ⟨item, hitem, hone⟩ := exists_mem_of_mapM hread declaration hdeclaration
  obtain ⟨form, hinside, hbody⟩ := exists_body_of_ofJson? hone
  exact DeclarationBody.isFinite_of_mem_numbers hbody
    (hinside.writable (Json.writable_array_iff.mp hwritable item hitem))

/-- With legible numbers what is written is legible. -/
theorem legible_listToJson
    (h : ∀ declaration ∈ declarations, ∀ value ∈ declaration.numbers,
      value.isFinite = true ∧ Json.Reproduces toDouble value) :
    (listToJson declarations).Legible toDouble := by
  simpa [listToJson] using fun declaration hdeclaration =>
    legible_toJson (h declaration hdeclaration)

end Declaration

end Specimen
