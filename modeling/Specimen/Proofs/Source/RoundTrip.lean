import Specimen.Proofs.Source.DocumentText
import Specimen.Proofs.Source.TypeReading
import Specimen.Source.Document

/-!
# Reading written documents

A written document is read as the declarations that were written, whatever the names of properties
and of members are and however many modifiers stand before a declaration. Each reader is applied to
the tokens of the part that it reads, and leaves the tokens of the parts after it. Main statement:
`declarationsOfText_documentText`.
-/

namespace Specimen.Source

/-- The reader, which may use nothing, gives the value and leaves the rest. -/
def Leaves {α : Type} {ts : List Token} (result : Except Fault (α × Remaining ts)) (value : α)
    (rest : List Token) : Prop :=
  ∃ h, result = .ok (value, ⟨rest, h⟩)

theorem Leaves.bind {α β : Type} {ts ts' rest rest' : List Token}
    {result : Except Fault (α × Remaining ts)}
    {next : α × Remaining ts → Except Fault (Taken ts' β)} {x : α} {y : β}
    (h : Leaves result x rest) (hnext : ∀ hle, Reads (next (x, ⟨rest, hle⟩)) y rest') :
    Reads (result >>= next) y rest' := by
  obtain ⟨hle, rfl⟩ := h
  exact hnext hle

/-! ## Properties -/

section Properties

variable (tail : List Char) {ts rest : List Token}

theorem dropOptional_of_startsWith {kind : TokenKind} {ts : List Token}
    (h : startsWith kind ts = false) : dropOptional kind ts = ts := by
  cases ts with
  | nil => rfl
  | cons token ts => exact if_neg (by simpa [startsWith] using h)

/-- The question mark of an optional member is told from what stands behind it. -/
theorem optional_of_spells {optional : Bool} {kind : TokenKind} {text : List Char}
    {shapes : List Shape} (hkind : kind ≠ .mark .question)
    (hts : Spells ((if optional then [markShape .question] else []) ++ (kind, text) :: shapes)
      ts rest) :
    startsWith (.mark .question) ts = optional
      ∧ ∃ token after, dropOptional (.mark .question) ts = token :: after
        ∧ token.kind = kind ∧ token.text = text ∧ Spells shapes after rest := by
  cases optional with
  | false =>
      obtain ⟨token, after, rfl, hsame, htext, hafter⟩ := Spells.cons_iff.mp hts
      have hnot : startsWith (.mark .question) (token :: after) = false := by
        simp [startsWith, hsame, hkind]
      exact ⟨hnot, token, after, dropOptional_of_startsWith hnot, hsame, htext, hafter⟩
  | true =>
      obtain ⟨question, middle, rfl, hquestion, -, hmiddle⟩ := Spells.cons_iff.mp hts
      obtain ⟨token, after, rfl, hsame, htext, hafter⟩ := Spells.cons_iff.mp hmiddle
      exact ⟨by simp [startsWith, hquestion], token, after, if_pos hquestion, hsame, htext, hafter⟩

theorem reads_propertyType {type : TypeRef} {colon : Token} {after : List Token}
    (hcolon : colon.kind = .mark .colon) (h : Reads (typeExpr after) type rest) :
    Leaves (propertyType (colon :: after)) type rest := by
  obtain ⟨hshort, h⟩ := h
  refine ⟨Nat.le_of_lt (Nat.lt_trans hshort (length_lt_cons colon after)), ?_⟩
  rw [propertyType, if_pos hcolon, h]
  rfl

/-- A colon and a type behind a name make a property, if the property ends behind the type. -/
theorem property_of_type {chars : List Char} {type : TypeRef} {colon : Token}
    {after middle : List Token}
    (hdrop : dropOptional (.mark .question) ts = colon :: after)
    (hcolon : colon.kind = .mark .colon) (htype : Reads (typeExpr after) type middle)
    (hend : ∃ hle, endProperty tail middle = .ok ⟨rest, hle⟩) :
    Leaves (property tail chars ts)
      (some ⟨String.ofList chars, type, startsWith (.mark .question) ts⟩) rest := by
  have hread := reads_propertyType hcolon htype
  rw [← hdrop] at hread
  obtain ⟨hle, hread⟩ := hread
  obtain ⟨hshort, hend⟩ := hend
  have hparen : startsWith (.mark .openParen) (dropOptional (.mark .question) ts) = false := by
    simp [hdrop, startsWith, hcolon]
  have hless : startsWith (.mark .less) (dropOptional (.mark .question) ts) = false := by
    simp [hdrop, startsWith, hcolon]
  refine ⟨Nat.le_trans hshort (Nat.le_trans hle (length_dropOptional_le (.mark .question) ts)), ?_⟩
  simp only [property, Remaining.skipping, Remaining.andThen, Remaining.all, hparen, hless,
    Bool.or_self, Bool.false_eq_true, if_false, hread, hend, bind, Except.bind, pure, Except.pure]

theorem endProperty_of_separator {separator : Token}
    (h : separator.kind = .mark .semicolon ∨ separator.kind = .mark .comma) :
    ∃ hle, endProperty tail (separator :: rest) = .ok ⟨rest, hle⟩ :=
  ⟨_, if_pos h⟩

/-- What stands behind the name of a property is read as the property. -/
theorem reads_property {field : Field} (h : isWritable field.type = true)
    (hts : Spells ((if field.optional then [markShape .question] else [])
      ++ markShape .colon :: (typeShapes field.type ++ [markShape .semicolon])) ts rest) :
    Leaves (property tail field.name.toList ts) (some field) rest := by
  obtain ⟨hoptional, colon, after, hdrop, hcolon, -, hafter⟩ :=
    optional_of_spells (by decide : TokenKind.mark .colon ≠ .mark .question) hts
  obtain ⟨middle, htype, hend⟩ := Spells.append_iff.mp hafter
  obtain ⟨semicolon, rest, rfl, hsemicolon, -, hnil⟩ := Spells.cons_iff.mp hend
  obtain rfl := Spells.nil_iff.mp hnil
  have hends : EndsType field.type (semicolon :: rest) := endsType_of_mark hsemicolon (by decide)
  have hread : Leaves (property tail field.name.toList ts)
      (some ⟨String.ofList field.name.toList, field.type, startsWith (.mark .question) ts⟩) rest :=
    property_of_type tail hdrop hcolon (reads_typeExpr (isPlain_of_isWritable _ h) htype hends)
      (endProperty_of_separator tail (.inl hsemicolon))
  rwa [hoptional, String.ofList_toList] at hread

/-- The tokens of a property begin with a quoted text. -/
theorem string_of_fieldShapes {field : Field} (hts : Spells (fieldShapes field) ts rest) :
    ∃ name after, ts = name :: after ∧ name.kind = .string ∧ name.text = quote field.name.toList
      ∧ Spells ((if field.optional then [markShape .question] else [])
        ++ markShape .colon :: (typeShapes field.type ++ [markShape .semicolon])) after rest :=
  Spells.cons_iff.mp hts

theorem Reads.member {field : Option Field}
    (h : Reads (plainMember tail (dropReadonly ts)) field rest) :
    Reads (member tail ts) field rest := by
  obtain ⟨hshort, h⟩ := h
  refine ⟨Nat.lt_of_lt_of_le hshort (length_dropReadonly_le _), ?_⟩
  rw [Source.member, h]
  rfl

theorem reads_member {field : Field} (h : isWritable field.type = true)
    (hts : Spells (fieldShapes field) ts rest) : Reads (member tail ts) (some field) rest := by
  obtain ⟨name, after, rfl, hname, htext, hafter⟩ := string_of_fieldShapes hts
  have hdrop : dropReadonly (name :: after) = name :: after :=
    if_neg fun hboth => by simp [hname] at hboth
  refine Reads.member tail ?_
  rw [hdrop]
  simp only [plainMember, hname, plainMember.named, htext, unquote_quote]
  exact (reads_property tail h hafter).bind fun _ => Reads.ok rfl rfl

theorem reads_interfaceBody {name : String} {fields : List Field}
    (h : ∀ field ∈ fields, isWritable field.type = true)
    (hts : Spells (fields.flatMap fieldShapes ++ [markShape .closeBrace]) ts rest) :
    Reads (interfaceBody tail name ts) fields rest := by
  induction fields generalizing ts with
  | nil =>
      obtain ⟨close, after, rfl, hclose, -, hnil⟩ := Spells.cons_iff.mp hts
      obtain rfl := Spells.nil_iff.mp hnil
      rw [interfaceBody, if_pos hclose]
      exact Reads.ok rfl rfl
  | cons field fields ih =>
      rw [List.flatMap_cons, List.append_assoc] at hts
      obtain ⟨middle, hfield, hfields⟩ := Spells.append_iff.mp hts
      have hmember := reads_member tail (h field List.mem_cons_self) hfield
      have hmore := ih (fun other hother => h other (List.mem_cons_of_mem _ hother)) hfields
      obtain ⟨token, after, rfl, htoken, -⟩ := string_of_fieldShapes hfield
      rw [interfaceBody, if_neg (by simp [htoken])]
      exact hmember.bind fun _ => hmore.bind fun _ => Reads.ok rfl rfl

end Properties

/-! ## Members of enumerations -/

section Members

variable (enumeration : String) {ts rest : List Token}

theorem IsWhole.ofSign_roundedMagnitude {value : Float} (h : IsWhole value) :
    Binary64.ofSign (Binary64.isNegative value) (Binary64.roundedMagnitude value) = value := by
  obtain ⟨negative, n, hn, rfl⟩ := h
  rw [Binary64.isNegative_ofSign hn, Binary64.roundedMagnitude_ofSign hn]

/-- A written value before the end of its member is read as the value. -/
theorem reads_initializer {value : EnumLiteral} (h : WritableValue value)
    (hts : Spells [valueShape value] ts rest) (hend : atMemberEnd rest = true) :
    Leaves (initializer ts) value rest := by
  obtain ⟨token, after, rfl, hkind, htext, hnil⟩ := Spells.cons_iff.mp hts
  obtain rfl := Spells.nil_iff.mp hnil
  refine ⟨Nat.le_of_lt (length_lt_cons token after), ?_⟩
  rw [initializer.eq_def]
  dsimp only
  cases value with
  | string text =>
      have htext : token.text = quote text.toList := htext
      rw [if_pos ⟨hkind, hend⟩, htext, unquote_quote, String.ofList_toList]
      rfl
  | number value =>
      have hkind : token.kind = .number := hkind
      have htext : token.text = valueChars (.number value) := htext
      have hnumber : numberLiteral token.text after = .ok value := by
        rw [numberLiteral, htext, valueChars, numberValue?_wholeChars,
          IsWhole.ofSign_roundedMagnitude h]
      rw [if_neg (by simp [hkind]), if_pos ⟨hkind, hend⟩, hnumber]
      rfl

/-- The tokens of a member begin with a quoted text and end with a comma. -/
theorem string_of_memberShapes {member : EnumMember} (hts : Spells (memberShapes member) ts rest) :
    ∃ name after, ts = name :: after ∧ name.kind = .string ∧ name.text = quote member.name.toList
      ∧ Spells (initializerShapes member.value ++ [markShape .comma]) after rest :=
  Spells.cons_iff.mp hts

theorem reads_enumMember {member : EnumMember}
    (h : ∀ value, member.value = some value → WritableValue value)
    (hts : Spells (memberShapes member) ts rest) :
    ∃ comma, comma.kind = .mark .comma
      ∧ Reads (enumMember enumeration ts) member (comma :: rest) := by
  obtain ⟨name, after, rfl, hname, htext, hafter⟩ := string_of_memberShapes hts
  obtain ⟨middle, hvalue, hend⟩ := Spells.append_iff.mp hafter
  obtain ⟨comma, middle, rfl, hcomma, -, hnil⟩ := Spells.cons_iff.mp hend
  obtain rfl := Spells.nil_iff.mp hnil
  refine ⟨comma, hcomma, ?_⟩
  have hread : Reads (enumMemberName enumeration (name :: after)) member.name after := by
    rw [enumMemberName, if_neg (by simp [hname, TokenKind.isWord]), if_pos hname, htext,
      unquote_quote, String.ofList_toList]
    exact Reads.ok rfl rfl
  refine hread.bind fun hshort => ?_
  obtain ⟨text, value⟩ := member
  cases value with
  | none =>
      obtain rfl := Spells.nil_iff.mp hvalue
      dsimp only
      rw [if_neg (by simp [hcomma])]
      exact Reads.ok rfl rfl
  | some value =>
      obtain ⟨equals, after, rfl, hequals, -, hvalue⟩ := Spells.cons_iff.mp hvalue
      have hend : atMemberEnd (comma :: middle) = true := by
        simp [atMemberEnd, startsWith, hcomma]
      dsimp only
      rw [if_pos hequals]
      exact (reads_initializer (h value rfl) hvalue hend).bind fun _ => Reads.ok rfl rfl

theorem reads_enumBody {members : List EnumMember}
    (h : ∀ member ∈ members, ∀ value, member.value = some value → WritableValue value)
    (hts : Spells (members.flatMap memberShapes ++ [markShape .closeBrace]) ts rest) :
    Reads (enumBody enumeration ts) members rest := by
  induction members generalizing ts with
  | nil =>
      obtain ⟨close, after, rfl, hclose, -, hnil⟩ := Spells.cons_iff.mp hts
      obtain rfl := Spells.nil_iff.mp hnil
      rw [enumBody, if_pos hclose]
      exact Reads.ok rfl rfl
  | cons member members ih =>
      rw [List.flatMap_cons, List.append_assoc] at hts
      obtain ⟨middle, hmember, hmembers⟩ := Spells.append_iff.mp hts
      obtain ⟨comma, hcomma, hread⟩ := reads_enumMember enumeration
        (h member List.mem_cons_self) hmember
      have hmore := ih (fun other hother => h other (List.mem_cons_of_mem _ hother)) hmembers
      obtain ⟨token, after, rfl, htoken, -⟩ := string_of_memberShapes hmember
      rw [enumBody, if_neg (by simp [htoken])]
      refine hread.bind fun _ => ?_
      dsimp only
      rw [if_pos hcomma]
      exact hmore.bind fun _ => Reads.ok rfl rfl

end Members

/-! ## Declarations -/

section Declarations

variable (tail : List Char) {name : String} {ts rest : List Token}

theorem reads_expect {kind : TokenKind} {token : Token} (h : token.kind = kind) :
    Reads (expect kind (token :: rest)) () rest := by
  rw [expect, if_pos h]
  exact Reads.ok rfl rfl

theorem reads_expectWord {token : Token} (hkind : token.kind = wordKind name.toList)
    (htext : token.text = name.toList) : Reads (expectWord (token :: rest)) name rest := by
  rw [expectWord, if_pos (hkind ▸ isWord_wordKind _), htext, String.ofList_toList]
  exact Reads.ok rfl rfl

theorem skipTypeParameters_of_kind {token : Token} {mark : Mark} (h : token.kind = .mark mark)
    (hmark : mark ≠ .less) : skipTypeParameters (token :: rest) = token :: rest :=
  if_neg (by simp [h, hmark])

/-- An interface without type parameters and without heritage is read as far as its body is. -/
theorem reads_plainInterface {name openBrace : Token} {body more : List Token} {fields : List Field}
    (hname : name.kind.isWord = true) (hopen : openBrace.kind = .mark .openBrace) (tail : List Char)
    (hbody : Reads (interfaceBody tail (String.ofList name.text) body) fields more) :
    Reads (interfaceDeclaration tail (name :: openBrace :: body))
      ⟨String.ofList name.text, .interface fields⟩ more := by
  have hword : Reads (expectWord (name :: openBrace :: body)) (String.ofList name.text)
      (openBrace :: body) := by
    rw [expectWord, if_pos hname]
    exact Reads.ok rfl rfl
  refine hword.bind fun _ => ?_
  dsimp only [Taken.skipping, Taken.upTo, Taken.ofRemaining]
  have hskip : ∃ hle, skipHeritage (skipTypeParameters (openBrace :: body))
      = .ok ⟨openBrace :: body, hle⟩ := by
    rw [skipTypeParameters_of_kind hopen (by decide)]
    exact ⟨_, if_neg (by simp [hopen])⟩
  obtain ⟨hle, hskip⟩ := hskip
  rw [hskip]
  refine (reads_expect hopen).bind fun _ => ?_
  exact hbody.bind fun _ => Reads.ok rfl rfl

theorem reads_interfaceDeclaration {fields : List Field}
    (h : ∀ field ∈ fields, isWritable field.type = true)
    (hts : Spells (wordShape name.toList :: bodyShapes (.interface fields)) ts rest) :
    Reads (interfaceDeclaration tail ts) ⟨name, .interface fields⟩ rest := by
  obtain ⟨word, middle, rfl, hword, htext, hbody⟩ := Spells.cons_iff.mp hts
  obtain ⟨brace, after, rfl, hbrace, -, hfields⟩ := Spells.cons_iff.mp hbody
  obtain rfl : String.ofList word.text = name := by rw [htext, String.ofList_toList]
  exact reads_plainInterface (hword ▸ isWord_wordKind _) hbrace tail
    (reads_interfaceBody tail h hfields)

theorem reads_aliasDeclaration {target : TypeRef} (h : isWritable target = true)
    (hts : Spells (wordShape name.toList :: bodyShapes (.alias target)) ts rest) :
    Reads (aliasDeclaration ts) ⟨name, .alias target⟩ rest := by
  obtain ⟨word, middle, rfl, hword, htext, hbody⟩ := Spells.cons_iff.mp hts
  obtain ⟨equals, after, rfl, hequals, -, hafter⟩ := Spells.cons_iff.mp hbody
  obtain ⟨middle, htarget, hend⟩ := Spells.append_iff.mp hafter
  obtain ⟨semicolon, rest, rfl, hsemicolon, -, hnil⟩ := Spells.cons_iff.mp hend
  obtain rfl := Spells.nil_iff.mp hnil
  refine (reads_expectWord hword htext).bind fun _ => ?_
  have hread : Reads (expect (.mark .equals) (skipTypeParameters (equals :: after))) () after := by
    rw [skipTypeParameters_of_kind hequals (by decide)]
    exact reads_expect hequals
  refine hread.bind fun _ => ?_
  have hread := reads_typeExpr (isPlain_of_isWritable target h) htarget
    (endsType_of_mark hsemicolon (by decide))
  refine hread.bind fun _ => ?_
  exact Reads.ok rfl (if_pos hsemicolon)

theorem reads_enumDeclaration {members : List EnumMember}
    (h : ∀ member ∈ members, ∀ value, member.value = some value → WritableValue value)
    (hts : Spells (wordShape name.toList :: bodyShapes (.enumeration members)) ts rest) :
    Reads (enumDeclaration ts) ⟨name, .enumeration members⟩ rest := by
  obtain ⟨word, middle, rfl, hword, htext, hbody⟩ := Spells.cons_iff.mp hts
  obtain ⟨brace, after, rfl, hbrace, -, hmembers⟩ := Spells.cons_iff.mp hbody
  refine (reads_expectWord hword htext).bind fun _ => ?_
  refine (reads_expect hbrace).bind fun _ => ?_
  exact (reads_enumBody name h hmembers).bind fun _ => Reads.ok rfl rfl

theorem reads_namespaceDeclaration
    (hts : Spells (wordShape name.toList :: bodyShapes .namespace) ts rest) :
    Reads (namespaceDeclaration ts) ⟨name, .namespace⟩ rest := by
  obtain ⟨word, middle, rfl, hword, htext, hbody⟩ := Spells.cons_iff.mp hts
  obtain ⟨opening, after, rfl, hopening, -, hafter⟩ := Spells.cons_iff.mp hbody
  obtain ⟨closing, rest, rfl, hclosing, -, hnil⟩ := Spells.cons_iff.mp hafter
  obtain rfl := Spells.nil_iff.mp hnil
  have hname : Reads (namespaceName (word :: opening :: closing :: rest)) name
      (opening :: closing :: rest) := by
    have hnot : word.kind ≠ .string := by
      intro hstring
      have hisWord := isWord_wordKind name.toList
      rw [← hword, hstring] at hisWord
      cases hisWord
    rw [namespaceName, if_neg hnot]
    exact reads_expectWord hword htext
  refine hname.bind fun _ => ?_
  have hwords : skipDottedWords (opening :: closing :: rest)
      = .ok (.all (opening :: closing :: rest)) := by
    rw [skipDottedWords, if_neg (by simp [hopening])]
  rw [hwords]
  refine Reads.ok rfl ?_
  have hskip : skipNamespaceBody (opening :: closing :: rest) = rest := by
    rw [skipNamespaceBody, if_pos (by simp [startsWith, hopening])]
    simp [skipTree, closeGroup, hopening, hclosing, TokenKind.depthAfter, TokenKind.isOpening,
      TokenKind.isClosing]
  exact hskip

theorem Reads.behind {α : Type} {result : Except Fault (Taken ts α)} {x : α}
    (h : Reads result x rest) (first : Token) :
    Reads (result.map (·.behind first)) x rest := by
  obtain ⟨hshort, rfl⟩ := h
  exact Reads.ok rfl rfl

/-- The keyword of a declaration and the name behind it start the declaration. -/
theorem reads_declaration? {declaration : Declaration} (h : Writable declaration) {first : Token}
    (hts : Spells (declarationShapes declaration) (first :: ts) rest) :
    ∃ result, declaration? tail first ts = some result ∧ Reads result declaration rest := by
  obtain ⟨token, after, hcons, hkind, -, hafter⟩ := Spells.cons_iff.mp hts
  obtain ⟨rfl, rfl⟩ := List.cons.inj hcons
  have hword : startsWithWord ts = true := by
    obtain ⟨word, middle, rfl, hword, -⟩ := Spells.cons_iff.mp hafter
    exact (congrArg TokenKind.isWord hword).trans (isWord_wordKind _)
  obtain ⟨name, body⟩ := declaration
  have hbody : WritableBody body := h.body
  cases body with
  | interface fields =>
      have hkind : first.kind = .keyword .interface := hkind
      refine ⟨_, ?_, (reads_interfaceDeclaration tail hbody hafter).behind first⟩
      simp only [declaration?, hkind]
  | «alias» target =>
      have hkind : first.kind = .keyword .type := hkind
      refine ⟨_, ?_, (reads_aliasDeclaration hbody hafter).behind first⟩
      simp only [declaration?, hkind, hword, if_true]
  | enumeration members =>
      have hkind : first.kind = .keyword .enum := hkind
      refine ⟨_, ?_, (reads_enumDeclaration hbody hafter).behind first⟩
      simp only [declaration?, hkind]
  | «namespace» =>
      have hkind : first.kind = .keyword .namespace := hkind
      refine ⟨_, ?_, (reads_namespaceDeclaration hafter).behind first⟩
      simp only [declaration?, hkind, hword, Bool.true_or, if_true]

theorem declarationsOfTokens_declaration {declaration : Declaration} (h : Writable declaration)
    (hts : Spells (declarationShapes declaration) ts rest) :
    declarationsOfTokens tail ts = (declarationsOfTokens tail rest).map (declaration :: ·) := by
  obtain ⟨first, after, rfl, -⟩ := Spells.cons_iff.mp hts
  obtain ⟨result, hresult, hshort, rfl⟩ := reads_declaration? tail h hts
  rw [declarationsOfTokens, hresult]

theorem declarationsOfTokens_modifier {modifier : Modifier} {first : Token}
    (h : first.kind = .keyword modifier.keyword) :
    declarationsOfTokens tail (first :: rest) = declarationsOfTokens tail rest := by
  have hnone : declaration? tail first rest = none := by
    cases modifier <;> simp [declaration?, h, Modifier.keyword]
  have hskip : skipTree (first :: rest) = rest := by
    simp [skipTree, closeGroup, h, TokenKind.depthAfter, TokenKind.isOpening, TokenKind.isClosing]
  rw [declarationsOfTokens, hnone, hskip]

/-- A line gives its declaration, and the modifiers before it are passed over. -/
theorem declarationsOfTokens_line {line : List Modifier × Declaration} (h : Writable line.2)
    (hts : Spells (lineShapes line) ts rest) :
    declarationsOfTokens tail ts = (declarationsOfTokens tail rest).map (line.2 :: ·) := by
  obtain ⟨modifiers, declaration⟩ := line
  induction modifiers generalizing ts with
  | nil => exact declarationsOfTokens_declaration tail h hts
  | cons modifier modifiers ih =>
      obtain ⟨first, after, rfl, hfirst, -, hafter⟩ := Spells.cons_iff.mp hts
      rw [declarationsOfTokens_modifier tail hfirst]
      exact ih h hafter

theorem declarationsOfTokens_lines {lines : List (List Modifier × Declaration)}
    (h : ∀ line ∈ lines, Writable line.2) (hts : Spells (lines.flatMap lineShapes) ts []) :
    declarationsOfTokens tail ts = .ok (lines.map Prod.snd) := by
  induction lines generalizing ts with
  | nil =>
      obtain rfl := Spells.nil_iff.mp hts
      rw [declarationsOfTokens, List.map_nil]
  | cons line lines ih =>
      rw [List.flatMap_cons] at hts
      obtain ⟨middle, hline, hlines⟩ := Spells.append_iff.mp hts
      rw [declarationsOfTokens_line tail (h line List.mem_cons_self) hline,
        ih (fun other hother => h other (List.mem_cons_of_mem _ hother)) hlines]
      rfl

end Declarations

/-- A written document is read as the declarations that were written, in order. -/
theorem declarationsOfText_documentText {lines : List (List Modifier × Declaration)}
    (h : ∀ line ∈ lines, Writable line.2) :
    declarationsOfText (documentText lines) = .ok (lines.map Prod.snd) := by
  have hspells := (lexes_document h).spells_ofText
  have hread := declarationsOfTokens_lines (Tokens.ofText (lines.flatMap lineChars)).tail h hspells
  simp only [declarationsOfText, documentText, String.toList_ofList, hread]

/-- Names that are keywords, quotes in names and values, and a generic type that closes with
several brackets. -/
theorem declarationsOfText_documentText_keywords :
    let names : TypeRef :=
      .generic "lists.Map" [.primitive .string, .generic "Set" [.generic "Set" []]]
    let lines : List (List Modifier × Declaration) :=
      [([.export, .declare], ⟨"interface", .interface
          [⟨"readonly", .arrayOf names, true⟩, ⟨"a \"b\"\n", .named "keyof", false⟩]⟩),
        ([], ⟨"type", .alias (.arrayOf (.arrayOf (.primitive .number)))⟩),
        ([.declare], ⟨"enum", .enumeration
          [⟨"low", some (.number (Binary64.ofSign true 3))⟩, ⟨"\\", some (.string "\"")⟩,
            ⟨"", none⟩]⟩),
        ([], ⟨"$", .namespace⟩)]
    documentText lines
        = "export declare interface interface \x7b \"readonly\"?: lists.Map<string, Set<Set<>>>[];"
          ++ " \"a \\\"b\\\"\\n\": keyof; \x7d\ntype type = number[][];\n"
          ++ "declare enum enum \x7b \"low\" = -3, \"\\\\\" = \"\\\"\", \"\", \x7d\n"
          ++ "namespace $ \x7b\x7d\n"
      ∧ (∀ line ∈ lines, Writable line.2)
      ∧ declarationsOfText (documentText lines) = .ok (lines.map Prod.snd) := by
  intro names lines
  have hlow : IsWhole (Binary64.ofSign true 3) := ⟨true, 3, by decide, rfl⟩
  have hlines : ∀ line ∈ lines, Writable line.2 := by
    simp only [lines, List.forall_mem_cons]
    refine ⟨⟨by decide, ?_⟩, ⟨by decide, ?_⟩, ⟨by decide, ?_⟩, ⟨by decide, trivial⟩, by simp⟩
    · simp only [WritableBody, List.forall_mem_cons]
      exact ⟨by decide, by decide, by simp⟩
    · change isWritable _ = true
      rfl
    · simpa [WritableBody, WritableValue] using hlow
  exact ⟨by decide +kernel, hlines, declarationsOfText_documentText hlines⟩

end Specimen.Source
