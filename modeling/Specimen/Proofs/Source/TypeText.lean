import Specimen.Pieces
import Specimen.Proofs.Source.Scanning
import Specimen.Source.TypeExpression

/-!
# Writing types

`isWritable` says which types can be written so that they are read again, and `typeShapes` lists the
tokens of the written form. Main statement: `lexes_type`.
-/

namespace Specimen.Source

/-! ## Types that can be written -/

/-- The parts of a dotted name. -/
def nameParts (name : String) : List (List Char) :=
  pieces '.' name.toList

/-- A word that does not begin the name of a type. -/
def isReserved (word : List Char) : Bool :=
  word == Keyword.readonly.text.toList || keywordTypes.contains (String.ofList word)

/-- A dotted name of identifiers that begins like a name of a type. -/
def isTypeName (name : String) : Bool :=
  (nameParts name).all isIdentifier && !(nameParts name).head?.any isReserved

mutual

/-- The written form of the type is read as the type. -/
def isWritable : TypeRef → Bool
  | .primitive _ => true
  | .named name => isTypeName name && (Primitive.ofKeyword? name).isNone
  | .generic name args => isTypeName name && areWritable args
  | .arrayOf element => isWritable element
  | .unsupported _ => false
termination_by structural type => type

/-- All types of a list can be written. -/
def areWritable : List TypeRef → Bool
  | [] => true
  | arg :: args => isWritable arg && areWritable args
termination_by structural args => args

end

/-- The tokens of a further part of a dotted name. -/
def partShapes (part : List Char) : List Shape :=
  [markShape .dot, wordShape part]

/-- The tokens of a dotted name. -/
def dottedShapes : List (List Char) → List Shape
  | [] => []
  | first :: parts => wordShape first :: parts.flatMap partShapes

mutual

/-- The tokens of a written type, where a type that is kept as its text is a single word. -/
def typeShapes : TypeRef → List Shape
  | .primitive type => [wordShape type.keyword.toList]
  | .named name => dottedShapes (nameParts name)
  | .generic name args => dottedShapes (nameParts name) ++ markShape .less :: argShapes args
  | .arrayOf element => typeShapes element ++ [markShape .openBracket, markShape .closeBracket]
  | .unsupported text => [wordShape text.toList]
termination_by structural type => type

/-- The tokens of written type arguments with the closing bracket. -/
def argShapes : List TypeRef → List Shape
  | [] => [markShape .greater]
  | [arg] => typeShapes arg ++ [markShape .greater]
  | arg :: args => typeShapes arg ++ markShape .comma :: argShapes args
termination_by structural args => args

end

/-! ## From types to tokens -/

theorem intercalate_cons (separator : Char) (first : List Char) (parts : List (List Char)) :
    [separator].intercalate (first :: parts) = first ++ parts.flatMap (separator :: ·) := by
  induction parts generalizing first with
  | nil => simp [List.intercalate]
  | cons second parts ih =>
      have hsecond := ih second
      simp only [List.intercalate, List.intersperse_cons_cons, List.flatten_cons] at hsecond ⊢
      rw [hsecond]
      simp

/-- The name of a type is a first part that is not reserved, and further parts behind dots. -/
theorem nameParts_cons {name : String} (h : isTypeName name = true) :
    ∃ first parts, nameParts name = first :: parts ∧ isIdentifier first = true
      ∧ isReserved first = false ∧ (∀ part ∈ parts, isIdentifier part = true)
      ∧ name.toList = first ++ parts.flatMap ('.' :: ·) := by
  obtain ⟨first, parts, hparts⟩ := List.exists_cons_of_ne_nil (pieces_ne_nil '.' name.toList)
  have hname := intercalate_pieces '.' name.toList
  rw [hparts, intercalate_cons] at hname
  simp only [isTypeName, nameParts, hparts, List.all_cons, Bool.and_eq_true, List.all_eq_true,
    List.head?_cons, Option.any_some, Bool.not_eq_true'] at h
  exact ⟨first, parts, hparts, h.1.1, h.2, h.1.2, hname.symm⟩

theorem of_isNameStart {next : Char → Bool} (h : nameStarts.all next = true) (c : Char)
    (hc : Pattern.isNameStart c = true) : next c = true :=
  List.all_eq_true.mp h c (mem_nameStarts hc)

theorem beginsWith_identifier {text : List Char} (h : isIdentifier text = true) :
    BeginsWith Pattern.isNameStart text := by
  cases text with
  | nil => cases h
  | cons c text =>
      simp only [isIdentifier, Bool.and_eq_true] at h
      exact h.1

theorem lexes_parts {parts : List (List Char)} (h : ∀ part ∈ parts, isIdentifier part = true) :
    Lexes (parts.flatMap ('.' :: ·)) (parts.flatMap partShapes) fun c =>
      !Pattern.isNamePart c := by
  apply Lexes.flatMap
  · intro part hpart
    refine (Lexes.mark .dot rfl (by decide)).append (Lexes.word (h part hpart)) ?_
    exact (beginsWith_identifier (h part hpart)).mono (of_isNameStart (by decide))
  · intro part _
    rfl

theorem lexes_dotted {name : String} (h : isTypeName name = true) :
    Lexes name.toList (dottedShapes (nameParts name)) fun c => !Pattern.isNamePart c := by
  obtain ⟨first, parts, hparts, hfirst, -, hall, hname⟩ := nameParts_cons h
  rw [hparts, hname]
  cases parts with
  | nil => simpa [dottedShapes] using Lexes.word hfirst
  | cons part parts => exact (Lexes.word hfirst).append (lexes_parts hall) rfl

theorem beginsWith_typeName {name : String} (h : isTypeName name = true) :
    BeginsWith Pattern.isNameStart name.toList := by
  obtain ⟨first, parts, -, hfirst, -, -, hname⟩ := nameParts_cons h
  rw [hname]
  exact (beginsWith_identifier hfirst).append _

/-- A written type begins with a word. -/
theorem beginsWith_type : (type : TypeRef) → isWritable type = true →
    BeginsWith Pattern.isNameStart type.chars
  | .primitive type, _ => by cases type <;> rfl
  | .named name, h => by
      simp only [isWritable, Bool.and_eq_true] at h
      exact beginsWith_typeName h.1
  | .generic name args, h => by
      simp only [isWritable, Bool.and_eq_true] at h
      exact (beginsWith_typeName h.1).append _
  | .arrayOf element, h => (beginsWith_type element h).append _
  | .unsupported _, h => by cases h
termination_by structural type => type

theorem lexes_brackets :
    Lexes ['[', ']'] [markShape .openBracket, markShape .closeBracket] fun _ => true := by
  have hopen : Lexes ['['] [markShape .openBracket] _ := .plainMark .openBracket rfl (by decide)
  have hclose : Lexes [']'] [markShape .closeBracket] _ := .plainMark .closeBracket rfl (by decide)
  exact hopen.append hclose rfl

theorem lexes_less : Lexes ['<'] [markShape .less] fun _ => true :=
  .plainMark .less rfl (by decide)

theorem lexes_greater : Lexes ['>'] [markShape .greater] fun _ => true :=
  .plainMark .greater rfl (by decide)

theorem lexes_comma : Lexes [','] [markShape .comma] fun _ => true :=
  .plainMark .comma rfl (by decide)

theorem lexes_space : Lexes [' '] [] fun c => !Pattern.isBlank c :=
  .blanks (by decide)

mutual

/-- The written form of a type is scanned to its tokens. -/
theorem lexes_type : (type : TypeRef) → isWritable type = true →
    Lexes type.chars (typeShapes type) fun c => !Pattern.isNamePart c
  | .primitive type, _ => by cases type <;> exact Lexes.word (by decide)
  | .named name, h => by
      simp only [isWritable, Bool.and_eq_true] at h
      exact lexes_dotted h.1
  | .generic name args, h => by
      simp only [isWritable, Bool.and_eq_true] at h
      have hargs := lexes_less.append (lexes_args args h.2).1
        ((lexes_args args h.2).2.mono fun _ _ => rfl)
      exact ((lexes_dotted h.1).append hargs rfl).mono fun _ _ => rfl
  | .arrayOf element, h =>
      ((lexes_type element h).append lexes_brackets rfl).mono fun _ _ => rfl
  | .unsupported _, h => by cases h
termination_by structural type => type

/-- The same for type arguments with the closing bracket. -/
theorem lexes_args : (args : List TypeRef) → areWritable args = true →
    Lexes (TypeRef.argChars args ++ ['>']) (argShapes args) (fun _ => true)
      ∧ BeginsWith (fun c => !Pattern.isBlank c) (TypeRef.argChars args ++ ['>'])
  | [], _ => ⟨lexes_greater, rfl⟩
  | [arg], h => by
      simp only [areWritable, Bool.and_true] at h
      refine ⟨(lexes_type arg h).append lexes_greater rfl, ?_⟩
      exact ((beginsWith_type arg h).mono (of_isNameStart (by decide))).append _
  | arg :: second :: args, h => by
      rw [areWritable, Bool.and_eq_true] at h
      obtain ⟨hlexes, hbegins⟩ := lexes_args (second :: args) h.2
      have hseparator := lexes_comma.append (lexes_space.append hlexes hbegins) rfl
      have hwhole := (lexes_type arg h.1).append hseparator rfl
      refine ⟨?_, ?_⟩
      · simpa [TypeRef.argChars, argShapes] using hwhole
      · rw [TypeRef.argChars, List.append_assoc]
        · exact ((beginsWith_type arg h.1).mono (of_isNameStart (by decide))).append _
        · simp
termination_by structural args => args

end

end Specimen.Source
