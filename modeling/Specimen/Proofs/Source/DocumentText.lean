import Specimen.Proofs.Source.TypeText

/-!
# Writing documents

A document of declarations, one after the other, each on its own line and behind any modifiers.
Names of properties and of members are quoted, so they may be arbitrary texts. `WritableBody` says
which declarations can be written; `lexes_document` says which tokens a document has.
-/

namespace Specimen.Source

/-! ## Declarations as text -/

/-- The words that may stand before a declaration and mean nothing. -/
inductive Modifier where
  | «export»
  | «declare»
deriving DecidableEq, Repr

/-- The keyword of a modifier. -/
def Modifier.keyword : Modifier → Keyword
  | .export => .export
  | .declare => .declare

/-- A property and its semicolon. -/
def fieldChars (field : Field) : List Char :=
  ' ' :: (quote field.name.toList ++ ((if field.optional then ['?'] else [])
    ++ (':' :: ' ' :: (field.type.chars ++ [';']))))

/-- The written value of a member. Only whole numbers are written as they are. -/
def valueChars : EnumLiteral → List Char
  | .string text => quote text.toList
  | .number value =>
      Decimal.wholeChars (Binary64.isNegative value) (Binary64.roundedMagnitude value)

/-- The value of a member behind an equals sign, if it has one. -/
def initializerChars : Option EnumLiteral → List Char
  | none => []
  | some value => ' ' :: '=' :: ' ' :: valueChars value

/-- A member of an enumeration and its comma. -/
def memberChars (member : EnumMember) : List Char :=
  ' ' :: (quote member.name.toList ++ (initializerChars member.value ++ [',']))

/-- What is written behind the name of a declaration. -/
def bodyChars : DeclarationBody → List Char
  | .interface fields => ' ' :: '\x7b' :: (fields.flatMap fieldChars ++ [' ', '\x7d'])
  | .alias target => ' ' :: '=' :: ' ' :: (target.chars ++ [';'])
  | .enumeration members => ' ' :: '\x7b' :: (members.flatMap memberChars ++ [' ', '\x7d'])
  | .namespace => [' ', '\x7b', '\x7d']

/-- The keyword of a kind of declaration. -/
def bodyKeyword : DeclarationBody → Keyword
  | .interface _ => .interface
  | .alias _ => .type
  | .enumeration _ => .enum
  | .namespace => .namespace

/-- A declaration. -/
def declarationChars (declaration : Declaration) : List Char :=
  (bodyKeyword declaration.body).text.toList
    ++ (' ' :: (declaration.name.toList ++ bodyChars declaration.body))

/-- A modifier and a blank. -/
def modifierChars (modifier : Modifier) : List Char :=
  modifier.keyword.text.toList ++ [' ']

/-- A line of a document: modifiers and a declaration. -/
def lineChars (line : List Modifier × Declaration) : List Char :=
  line.1.flatMap modifierChars ++ (declarationChars line.2 ++ ['\n'])

/-- A document. -/
def documentText (lines : List (List Modifier × Declaration)) : String :=
  String.ofList (lines.flatMap lineChars)

/-! ## What can be written -/

/-- The double is a whole number of magnitude at most `2 ^ 53`. -/
def IsWhole (value : Float) : Prop :=
  ∃ negative n, n ≤ Binary64.wholeLimit ∧ value = Binary64.ofSign negative n

/-- The value of a member can be written. -/
def WritableValue : EnumLiteral → Prop
  | .string _ => True
  | .number value => IsWhole value

/-- What a declaration says can be written. -/
def WritableBody : DeclarationBody → Prop
  | .interface fields => ∀ field ∈ fields, isWritable field.type = true
  | .alias target => isWritable target = true
  | .enumeration members => ∀ member ∈ members, ∀ value, member.value = some value →
      WritableValue value
  | .namespace => True

/-- The declaration can be written. -/
structure Writable (declaration : Declaration) : Prop where
  name : isIdentifier declaration.name.toList = true
  body : WritableBody declaration.body

/-! ## The tokens of a document -/

/-- The tokens of a property. -/
def fieldShapes (field : Field) : List Shape :=
  quoteShape field.name.toList :: ((if field.optional then [markShape .question] else [])
    ++ (markShape .colon :: (typeShapes field.type ++ [markShape .semicolon])))

/-- The token of a written value. -/
def valueShape : EnumLiteral → Shape
  | .string text => quoteShape text.toList
  | .number value => (.number, valueChars (.number value))

/-- The tokens of the value of a member. -/
def initializerShapes : Option EnumLiteral → List Shape
  | none => []
  | some value => [markShape .equals, valueShape value]

/-- The tokens of a member. -/
def memberShapes (member : EnumMember) : List Shape :=
  quoteShape member.name.toList :: (initializerShapes member.value ++ [markShape .comma])

/-- The tokens behind the name of a declaration. -/
def bodyShapes : DeclarationBody → List Shape
  | .interface fields =>
      markShape .openBrace :: (fields.flatMap fieldShapes ++ [markShape .closeBrace])
  | .alias target => markShape .equals :: (typeShapes target ++ [markShape .semicolon])
  | .enumeration members =>
      markShape .openBrace :: (members.flatMap memberShapes ++ [markShape .closeBrace])
  | .namespace => [markShape .openBrace, markShape .closeBrace]

/-- The token of a keyword. -/
def keywordShape (word : Keyword) : Shape :=
  (.keyword word, word.text.toList)

/-- The tokens of a declaration. -/
def declarationShapes (declaration : Declaration) : List Shape :=
  keywordShape (bodyKeyword declaration.body) :: wordShape declaration.name.toList
    :: bodyShapes declaration.body

/-- The tokens of a line. -/
def lineShapes (line : List Modifier × Declaration) : List Shape :=
  line.1.map (fun modifier => keywordShape modifier.keyword) ++ declarationShapes line.2

/-! ## From text to tokens -/

theorem lexes_semicolon : Lexes [';'] [markShape .semicolon] fun _ => true :=
  .plainMark .semicolon rfl (by decide)

theorem lexes_openBrace : Lexes ['\x7b'] [markShape .openBrace] fun _ => true :=
  .plainMark .openBrace rfl (by decide)

theorem lexes_closeBrace : Lexes ['\x7d'] [markShape .closeBrace] fun _ => true :=
  .plainMark .closeBrace rfl (by decide)

/-- A blank before the text, which does not begin with one. -/
theorem Lexes.spaced {text : List Char} {shapes : List Shape} {next : Char → Bool}
    (h : Lexes text shapes next) (hbegins : BeginsWith (fun c => !Pattern.isBlank c) text) :
    Lexes (' ' :: text) shapes next :=
  lexes_space.append h hbegins

theorem BeginsWith.not_blank {text : List Char} (h : BeginsWith Pattern.isNameStart text) :
    BeginsWith (fun c => !Pattern.isBlank c) text :=
  h.mono (of_isNameStart (by decide))

/-- A type, its end and a blank before it. -/
theorem lexes_typeEnd {type : TypeRef} (h : isWritable type = true) :
    Lexes (' ' :: (type.chars ++ [';'])) (typeShapes type ++ [markShape .semicolon])
      fun _ => true := by
  have hbegins := (beginsWith_type type h).not_blank
  exact ((lexes_type type h).append lexes_semicolon rfl).spaced (hbegins.append _)

/-- An equals sign between blanks. -/
theorem Lexes.behindEquals {text : List Char} {shapes : List Shape} {next : Char → Bool}
    (h : Lexes (' ' :: text) shapes next) :
    Lexes (' ' :: '=' :: ' ' :: text) (markShape .equals :: shapes) next := by
  have hequals : Lexes ['='] [markShape .equals] _ := .mark .equals rfl (by decide)
  exact (hequals.append h rfl).spaced rfl

theorem lexes_field {field : Field} (h : isWritable field.type = true) :
    Lexes (fieldChars field) (fieldShapes field) fun _ => true := by
  have hcolon : Lexes [':'] [markShape .colon] _ := .plainMark .colon rfl (by decide)
  have hquestion : Lexes ['?'] [markShape .question] _ := .plainMark .question rfl (by decide)
  have hafter := hcolon.append (lexes_typeEnd h) rfl
  unfold fieldChars fieldShapes
  cases field.optional with
  | false => exact ((Lexes.quote _).append hafter rfl).spaced rfl
  | true => exact ((Lexes.quote _).append (hquestion.append hafter rfl) rfl).spaced rfl

theorem lexes_value (value : EnumLiteral) :
    Lexes (valueChars value) [valueShape value] fun c => !isNumberPart c := by
  cases value with
  | string text => exact (Lexes.quote text.toList).mono fun _ _ => rfl
  | number value => exact Lexes.whole _ _

theorem beginsWith_value (value : EnumLiteral) :
    BeginsWith (fun c => !Pattern.isBlank c) (valueChars value) := by
  cases value with
  | string text => rfl
  | number value =>
      rw [valueChars]
      obtain ⟨c, more, hchars⟩ := List.exists_cons_of_ne_nil (Decimal.wholeChars_ne_nil
        (Binary64.isNegative value) (Binary64.roundedMagnitude value))
      have hstarts : (wholeStarts.all fun c => !Pattern.isBlank c) = true := by decide
      rw [hchars]
      exact List.all_eq_true.mp hstarts c (mem_wholeStarts hchars)

theorem lexes_member (member : EnumMember) :
    Lexes (memberChars member) (memberShapes member) fun _ => true := by
  have hname := Lexes.quote member.name.toList
  unfold memberChars memberShapes
  cases member.value with
  | none => exact (hname.append lexes_comma rfl).spaced rfl
  | some value =>
      have hvalue := (lexes_value value).append lexes_comma rfl
      have hafter := (hvalue.spaced ((beginsWith_value value).append _)).behindEquals
      exact (hname.append hafter rfl).spaced rfl

/-- Items between braces. -/
theorem lexes_block {α : Type} {text : α → List Char} {shapes : α → List Shape} {items : List α}
    (h : ∀ item ∈ items, Lexes (text item) (shapes item) fun _ => true)
    (hbegins : ∀ item ∈ items, BeginsWith (fun _ => true) (text item)) :
    Lexes (' ' :: '\x7b' :: (items.flatMap text ++ [' ', '\x7d']))
      (markShape .openBrace :: (items.flatMap shapes ++ [markShape .closeBrace]))
      fun _ => true := by
  have hinner := (Lexes.flatMap h hbegins).append (lexes_closeBrace.spaced rfl) rfl
  refine (lexes_openBrace.append hinner ?_).spaced rfl
  cases items.flatMap text <;> rfl

theorem lexes_body {body : DeclarationBody} (h : WritableBody body) :
    Lexes (bodyChars body) (bodyShapes body) fun _ => true := by
  cases body with
  | interface fields =>
      exact lexes_block (fun field hfield => lexes_field (h field hfield)) fun _ _ => rfl
  | «alias» target => exact (lexes_typeEnd h).behindEquals
  | enumeration members => exact lexes_block (fun member _ => lexes_member member) fun _ _ => rfl
  | «namespace» => exact (lexes_openBrace.append lexes_closeBrace rfl).spaced rfl

theorem lexes_declaration {declaration : Declaration} (h : Writable declaration) :
    Lexes (declarationChars declaration) (declarationShapes declaration) fun _ => true := by
  have hbody : BeginsWith (fun c => !Pattern.isNamePart c) (bodyChars declaration.body) := by
    cases declaration.body <;> rfl
  have hbegins := (beginsWith_identifier h.name).not_blank
  have hname := ((Lexes.word h.name).append (lexes_body h.body) hbody).spaced (hbegins.append _)
  exact (Lexes.keyword (bodyKeyword declaration.body)).append hname rfl

theorem beginsWith_keyword (word : Keyword) (text : List Char) :
    BeginsWith (fun c => !Pattern.isBlank c) (word.text.toList ++ text) :=
  (beginsWith_identifier (isIdentifier_keyword word)).not_blank.append _

theorem lexes_modifiers (modifiers : List Modifier) :
    Lexes (modifiers.flatMap modifierChars)
      (modifiers.map fun modifier => keywordShape modifier.keyword)
      fun c => !Pattern.isBlank c := by
  rw [← List.flatMap_singleton' (l := modifiers.map _), List.flatMap_map]
  refine Lexes.flatMap ?_ fun modifier _ => beginsWith_keyword modifier.keyword [' ']
  intro modifier _
  exact (Lexes.keyword modifier.keyword).append lexes_space rfl

theorem lexes_line {line : List Modifier × Declaration} (h : Writable line.2) :
    Lexes (lineChars line) (lineShapes line) fun c => !Pattern.isBlank c := by
  have hbreak : Lexes ['\n'] [] _ := .blanks (by decide)
  have hend := (lexes_declaration h).append hbreak rfl
  rw [List.append_nil] at hend
  exact (lexes_modifiers line.1).append hend
    ((beginsWith_keyword (bodyKeyword line.2.body) _).append _)

/-- A document is scanned to the tokens of its lines. -/
theorem lexes_document {lines : List (List Modifier × Declaration)}
    (h : ∀ line ∈ lines, Writable line.2) :
    Lexes (lines.flatMap lineChars) (lines.flatMap lineShapes) fun c => !Pattern.isBlank c := by
  apply Lexes.flatMap
  · intro line hline
    exact lexes_line (h line hline)
  · rintro ⟨modifiers, declaration⟩ _
    cases modifiers with
    | nil => exact (beginsWith_keyword (bodyKeyword declaration.body) _).append _
    | cons modifier modifiers =>
        exact ((beginsWith_keyword modifier.keyword [' ']).append _).append _

end Specimen.Source
