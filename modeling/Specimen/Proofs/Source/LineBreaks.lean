import Mathlib.Data.List.Chain
import Specimen.Proofs.Source.Signatures

/-!
# Line breaks between members

A property may end with its line. A signature is passed over up to the next separator, whatever
lines are between, so a line break behind a method does not end it: a property that comes next is
lost. The reader of types does not look at line breaks either, so the next member is taken for a
part of the type where it begins with `extends`, or with a word behind a type that is named like a
type operator.

`Entry.EndsBefore` excludes these pairs of neighbours. Between all others a line break does what a
separator does. Main statement: `declarationsOfText_of_lineBreaks`.
-/

namespace Specimen.Source

/-! ## Members and how they end -/

/-- A token of the shape, at the start of a document. -/
def Shape.token (shape : Shape) : Token :=
  ⟨shape.1, [], shape.2, 0⟩

/-- A member of an interface without what ends it. -/
inductive Entry where
  /-- A property with its type, perhaps behind the word `readonly`. -/
  | property (readonly : Bool) (name : Shape) (chars : List Char) (optional : Bool) (type : TypeRef)
      (hname : memberName? (Shape.token name) = some chars) (htype : isPlain type = true)
  /-- A method: its name, and its tokens from the first bracket on. -/
  | method (name : Shape) (chars : List Char) (optional : Bool) (opening : Shape)
    (rest : List Shape)
      (hname : memberName? (Shape.token name) = some chars)
      (hopening : opening.1 = .mark .openParen ∨ opening.1 = .mark .less)
      (hrest : IsSignatureTail ((opening :: rest).map Shape.token))

namespace Entry

/-- The tokens of a property behind its name. -/
def typeEnd (optional : Bool) (type : TypeRef) : List Shape :=
  (if optional then [markShape .question] else []) ++ markShape .colon :: typeShapes type

/-- The tokens of a method behind its name. -/
def signatureEnd (optional : Bool) (opening : Shape) (rest : List Shape) : List Shape :=
  (if optional then [markShape .question] else []) ++ opening :: rest

/-- The tokens of a member. -/
def shapes : Entry → List Shape
  | property readonly name _ optional type _ _ =>
      (if readonly then [keywordShape .readonly] else []) ++ name :: typeEnd optional type
  | method name _ optional opening rest _ _ _ => name :: signatureEnd optional opening rest

/-- The field that is kept of a member. -/
def field? : Entry → Option Field
  | property _ _ chars optional type _ _ => some ⟨String.ofList chars, type, optional⟩
  | method .. => none

/-- The first token of a member. -/
def first : Entry → Shape
  | property readonly name .. => if readonly then keywordShape .readonly else name
  | method name .. => name

/-- A line break ends the member if `next` comes behind it. -/
def EndsBefore (entry next : Entry) : Prop :=
  match entry with
  | property _ _ _ _ type _ _ => next.first.1 ≠ .keyword .extends
      ∧ ∀ name, type = .named name → typeOperators.contains name = true →
        next.first.1.isWord = false
  | method .. => next.field? = none

end Entry

/-- What ends a member. -/
inductive Ending where
  | separator
  | lineBreak

/-- The tokens are those of the members with their endings and of the closing brace behind them, and
then comes `rest`. -/
inductive Written (rest : List Token) : List (Entry × Ending) → List Token → Prop
  | nil {close : Token} (hclose : close.kind = .mark .closeBrace) : Written rest [] (close :: rest)
  | separator {entry : Entry} {lines : List (Entry × Ending)} {ts middle : List Token}
      {separator : Token} (h : Spells entry.shapes ts (separator :: middle))
      (hseparator : isSeparator separator.kind = true) (hrest : Written rest lines middle) :
      Written rest ((entry, .separator) :: lines) ts
  | lineBreak {entry : Entry} {lines : List (Entry × Ending)} {ts middle : List Token}
      (h : Spells entry.shapes ts middle)
      (hbreak : ∀ token ∈ middle.head?, hasLineBreak token.gap = true)
      (hrest : Written rest lines middle) : Written rest ((entry, .lineBreak) :: lines) ts

/-- The fields that are kept of members. -/
def fieldsOf (lines : List (Entry × Ending)) : List Field :=
  lines.flatMap fun line => line.1.field?.toList

/-- A line break that ends a member ends it before the next one. -/
def BreaksEnd (lines : List (Entry × Ending)) : Prop :=
  lines.IsChain fun line next => line.2 = .lineBreak → line.1.EndsBefore next.1

/-! ## First tokens -/

namespace Entry

theorem first_ne_mark (entry : Entry) (mark : Mark) : entry.first.1 ≠ .mark mark := by
  cases entry with
  | property readonly name chars optional type hname _ =>
      cases readonly with
      | true => simp [first, keywordShape]
      | false => exact ne_mark_of_memberName? hname mark
  | method name chars optional opening rest hname => exact ne_mark_of_memberName? hname mark

theorem exists_first {entry : Entry} {ts rest : List Token} (h : Spells entry.shapes ts rest) :
    ∃ token after, ts = token :: after ∧ token.kind = entry.first.1 := by
  cases entry with
  | property readonly =>
      cases readonly with
      | true | false =>
          obtain ⟨token, after, rfl, hkind, -⟩ := Spells.cons_iff.mp h
          exact ⟨token, after, rfl, hkind⟩
  | method =>
      obtain ⟨token, after, rfl, hkind, -⟩ := Spells.cons_iff.mp h
      exact ⟨token, after, rfl, hkind⟩

end Entry

/-- Members begin with the first token of the first of them, no members with the closing brace. -/
theorem Written.exists_first {rest ts : List Token} {lines : List (Entry × Ending)}
    (h : Written rest lines ts) :
    ∃ token after, ts = token :: after
      ∧ (lines = [] ∧ token.kind = .mark .closeBrace
        ∨ ∃ next ∈ lines.head?, token.kind = next.1.first.1) := by
  cases h with
  | nil hclose => exact ⟨_, _, rfl, .inl ⟨rfl, hclose⟩⟩
  | separator h | lineBreak h =>
      obtain ⟨token, after, rfl, hkind⟩ := Entry.exists_first h
      exact ⟨token, after, rfl, .inr ⟨_, rfl, hkind⟩⟩

/-! ## Reading a member -/

section Members

variable (tail : List Char) {ts middle rest : List Token}

/-- The name of a member depends on the shape of its token only. -/
theorem memberName?_of_shape {token : Token} {name : Shape} (hkind : token.kind = name.1)
    (htext : token.text = name.2) : memberName? token = memberName? (Shape.token name) := by
  cases token
  subst hkind htext
  rfl

/-- A property is read as its field, if its type and the property end where its tokens do. -/
theorem reads_property_entry {readonly : Bool} {name : Shape} {chars : List Char} {optional : Bool}
    {type : TypeRef} {hname : memberName? (Shape.token name) = some chars}
    {htype : isPlain type = true}
    (h : Spells (Entry.property readonly name chars optional type hname htype).shapes ts middle)
    (htypeEnd : EndsType type middle) (hend : ∃ hle, endProperty tail middle = .ok ⟨rest, hle⟩) :
    Reads (member tail ts) (some ⟨String.ofList chars, type, optional⟩) rest := by
  have hplain {token : Token} {after : List Token} (hkind : token.kind = name.1)
      (htext : token.text = name.2) (hafter : Spells (Entry.typeEnd optional type) after middle) :
      Reads (plainMember tail (token :: after)) (some ⟨String.ofList chars, type, optional⟩)
        rest := by
    obtain ⟨rfl, colon, later, hdrop, hcolon, -, hlater⟩ :=
      optional_of_spells (by decide : TokenKind.mark .colon ≠ .mark .question) hafter
    have hread := reads_typeExpr htype hlater htypeEnd
    exact (property_of_type tail hdrop hcolon hread hend).named
      ((memberName?_of_shape hkind htext).trans hname)
  refine Reads.member tail ?_
  cases readonly with
  | true =>
      obtain ⟨word, later, rfl, hword, -, hlater⟩ := Spells.cons_iff.mp h
      obtain ⟨token, after, rfl, hkind, htext, hafter⟩ := Spells.cons_iff.mp hlater
      rw [dropReadonly_of_word hword fun mark _ => hkind ▸ ne_mark_of_memberName? hname mark]
      exact hplain hkind htext hafter
  | false =>
      obtain ⟨token, after, rfl, hkind, htext, hafter⟩ := Spells.cons_iff.mp h
      have hdrop : dropReadonly (token :: after) = token :: after := by
        cases optional with
        | true | false =>
            obtain ⟨next, later, rfl, hnext, -⟩ := Spells.cons_iff.mp hafter
            exact dropReadonly_of_name (by simp [hnext])
      rw [hdrop]
      exact hplain hkind htext hafter

theorem skipMember_of_spells {shapes : List Shape} (h : IsSignatureTail (shapes.map Shape.token))
    (hts : Spells shapes ts middle) : skipMember ts = skipMember middle := by
  obtain ⟨tokens, rfl, rfl⟩ := hts
  have hkinds :
      tokens.map Token.kind = ((tokens.map Token.shape).map Shape.token).map Token.kind := by
    simp [Shape.token, Token.shape]
  have htokens : IsSignatureTail tokens := (isBalancedFrom_of_kinds hkinds 0).trans h
  exact skipMember_signature htokens middle

section Methods

variable {name opening : Shape} {chars : List Char} {optional : Bool} {shapes : List Shape}
  {hname : memberName? (Shape.token name) = some chars}
  {hopening : opening.1 = .mark .openParen ∨ opening.1 = .mark .less}
  {hrest : IsSignatureTail ((opening :: shapes).map Shape.token)}

/-- The word `readonly` is dropped only where no question mark comes behind it. -/
theorem dropReadonly_or (token : Token) (after : List Token) :
    dropReadonly (token :: after) = token :: after
      ∨ dropReadonly (token :: after) = after ∧ startsWith (.mark .question) after = false := by
  by_cases hdrop : token.kind = .keyword .readonly ∧ !(startsWith (.mark .colon) after
      || startsWith (.mark .question) after || startsWith (.mark .semicolon) after)
  · refine .inr ⟨if_pos hdrop, ?_⟩
    have hnot := hdrop.2
    simp only [Bool.not_eq_true', Bool.or_eq_false_iff] at hnot
    exact hnot.1.2
  · exact .inl (if_neg hdrop)

/-- A method is passed over, and so is what comes behind it up to a separator. -/
theorem reads_method_entry
    (h : Spells (Entry.method name chars optional opening shapes hname hopening hrest).shapes ts
      middle) : Reads (member tail ts) none (skipMember middle) := by
  obtain ⟨token, after, rfl, hkind, htext, hafter⟩ := Spells.cons_iff.mp h
  have hnot : opening.1 ≠ .mark .question :=
    hopening.elim (fun hparen => by simp [hparen]) fun hless => by simp [hless]
  obtain ⟨-, bracket, later, hdrop, hbracket, hbracketText, hlater⟩ :=
    optional_of_spells hnot hafter
  have hskip : skipMember (bracket :: later) = skipMember middle :=
    skipMember_of_spells hrest
      (Spells.cons_iff.mpr ⟨bracket, later, rfl, hbracket, hbracketText, hlater⟩)
  rw [← hbracket] at hopening
  refine Reads.member tail ?_
  rcases dropReadonly_or token after with hsame | ⟨hdropped, hnotOptional⟩
  · rw [hsame]
    exact (property_of_signature tail _ hdrop hopening hskip).named
      ((memberName?_of_shape hkind htext).trans hname)
  · -- behind the word that is dropped, the method looks like a call
    rw [dropOptional_of_startsWith hnotOptional] at hdrop
    rw [hdropped, hdrop]
    exact reads_plainMember_unnamed tail _ (hopening.imp id .inl) hskip

/-- A method that stands where a signature is passed over is passed over too. -/
theorem skipMember_of_method
    (h : Spells (Entry.method name chars optional opening shapes hname hopening hrest).shapes ts
      middle) : skipMember ts = skipMember middle := by
  obtain ⟨token, after, rfl, hkind, -, hafter⟩ := Spells.cons_iff.mp h
  have hnot (mark : Mark) : token.kind ≠ .mark mark := hkind ▸ ne_mark_of_memberName? hname mark
  rw [skipMember_cons (by simp [isSeparator, hnot]) (by simp [TokenKind.isOpening, hnot]) (hnot _)]
  cases optional with
  | false => exact skipMember_of_spells hrest hafter
  | true =>
      obtain ⟨question, later, rfl, hquestion, -, hlater⟩ := Spells.cons_iff.mp hafter
      rw [skipMember_cons (by simp [isSeparator, hquestion])
        (by simp [TokenKind.isOpening, hquestion]) (by simp [hquestion])]
      exact skipMember_of_spells hrest hlater

end Methods

/-! ## Where a member ends -/

/-- A type ends before the first token of a member that its property may stand before. -/
theorem endsType_of_first {type : TypeRef} {next : Entry} {token : Token} {after : List Token}
    (hkind : token.kind = next.first.1) (hextends : next.first.1 ≠ .keyword .extends)
    (hword : ∀ name, type = .named name → typeOperators.contains name = true →
      next.first.1.isWord = false) : EndsType type (token :: after) := by
  have hnot (mark : Mark) : token.kind ≠ .mark mark := hkind ▸ next.first_ne_mark mark
  refine ⟨⟨?_, ?_, ?_⟩, ?_, ?_, ?_⟩
  · simp [startsWith, hnot]
  · simp [startsWith, hnot]
  · intro name hname hoperator
    rw [startsWithWord, hkind, hword name hname hoperator]
  · simp [startsWith, hnot]
  · simp [isJoint, hnot]
  · simpa [startsWith, hkind] using hextends

/-- A property ends with its line. -/
theorem endProperty_of_lineBreak {token : Token} {after : List Token}
    (hseparator : isSeparator token.kind = false) (hbreak : hasLineBreak token.gap = true) :
    ∃ hle, endProperty tail (token :: after) = .ok ⟨token :: after, hle⟩ := by
  refine ⟨Nat.le_refl _, ?_⟩
  rw [endProperty, if_neg (by simp [← isSeparator_iff, hseparator]), if_pos (.inr hbreak)]
  rfl

theorem fieldsOf_cons (line : Entry × Ending) (lines : List (Entry × Ending)) :
    fieldsOf (line :: lines) = line.1.field?.toList ++ fieldsOf lines :=
  List.flatMap_cons

/-- Where a signature is passed over before methods, no field is lost. -/
theorem Written.exists_skipMember {lines : List (Entry × Ending)} (h : Written rest lines ts)
    (hmethod : ∀ next ∈ lines.head?, next.1.field? = none) (hends : BreaksEnd lines) :
    ∃ later, later <:+ lines ∧ Written rest later (skipMember ts)
      ∧ fieldsOf later = fieldsOf lines := by
  induction h with
  | nil hclose =>
      refine ⟨[], List.nil_suffix, ?_, rfl⟩
      rw [skipMember, if_neg (by simp [hclose]), if_pos hclose]
      exact .nil hclose
  | @separator entry lines ts middle separator h hseparator hrest ih =>
      have hnone : entry.field? = none := hmethod _ rfl
      refine ⟨lines, List.suffix_cons _ _, ?_, by rw [fieldsOf_cons, hnone]; rfl⟩
      cases entry with
      | property => cases hnone
      | method =>
          rw [skipMember_of_method h, skipMember, if_pos (isSeparator_iff.mp hseparator)]
          exact hrest
  | @lineBreak entry lines ts middle h hbreak hrest ih =>
      have hnone : entry.field? = none := hmethod _ rfl
      cases entry with
      | property => cases hnone
      | method =>
          obtain ⟨hnext, hlater⟩ := List.isChain_cons.mp hends
          obtain ⟨later, hsuffix, hwritten, hfields⟩ :=
            ih (fun next hhead => hnext next hhead rfl) hlater
          refine ⟨later, hsuffix.trans (List.suffix_cons _ _), ?_, ?_⟩
          · rwa [skipMember_of_method h]
          · rw [hfields, fieldsOf_cons, hnone]
            rfl

/-- The first member is read as its field, and the fields of the others are left. -/
theorem Written.exists_reads_member {line : Entry × Ending} {lines : List (Entry × Ending)}
    (h : Written rest (line :: lines) ts) (hends : BreaksEnd (line :: lines)) :
    ∃ later middle, later <:+ lines ∧ Written rest later middle ∧ fieldsOf later = fieldsOf lines
      ∧ Reads (member tail ts) line.1.field? middle := by
  obtain ⟨hnext, hlater⟩ := List.isChain_cons.mp hends
  cases h with
  | @separator entry _ _ middle separator h hseparator hrest =>
      have hkind := isSeparator_iff.mp hseparator
      refine ⟨lines, middle, List.suffix_rfl, hrest, rfl, ?_⟩
      cases entry with
      | property =>
          refine reads_property_entry tail h ?_ (endProperty_of_separator tail hkind)
          rcases hkind with hkind | hkind
          · exact endsType_of_mark hkind (by decide)
          · exact endsType_of_mark hkind (by decide)
      | method =>
          have hread := reads_method_entry tail h
          rwa [skipMember, if_pos hkind] at hread
  | @lineBreak entry _ _ middle h hbreak hrest =>
      cases entry with
      | property =>
          refine ⟨lines, middle, List.suffix_rfl, hrest, rfl, ?_⟩
          obtain ⟨token, after, rfl, hfirst⟩ := hrest.exists_first
          refine reads_property_entry tail h ?_ ?_
          · rcases hfirst with ⟨-, hclose⟩ | ⟨next, hhead, hkind⟩
            · exact endsType_of_mark hclose (by decide)
            · obtain ⟨hextends, hword⟩ := hnext next hhead rfl
              exact endsType_of_first hkind hextends hword
          · refine endProperty_of_lineBreak tail ?_ (hbreak token rfl)
            rcases hfirst with ⟨-, hclose⟩ | ⟨next, hhead, hkind⟩
            · simp [isSeparator, hclose]
            · simp [isSeparator, hkind, next.1.first_ne_mark]
      | method =>
          obtain ⟨later, hsuffix, hwritten, hfields⟩ :=
            hrest.exists_skipMember (fun next hhead => hnext next hhead rfl) hlater
          exact ⟨later, _, hsuffix, hwritten, hfields, reads_method_entry tail h⟩

/-- Members are read as their fields. -/
theorem Written.reads {name : String} {lines : List (Entry × Ending)} {ts : List Token}
    (h : Written rest lines ts) (hends : BreaksEnd lines) :
    Reads (interfaceBody tail name ts) (fieldsOf lines) rest := by
  match lines with
  | [] =>
      cases h with
      | nil hclose =>
          rw [interfaceBody, if_pos hclose]
          exact Reads.ok rfl rfl
  | line :: lines =>
      obtain ⟨later, middle, hsuffix, hwritten, hfields, hread⟩ := h.exists_reads_member tail hends
      have hmore : Reads (interfaceBody tail name middle) (fieldsOf later) rest :=
        hwritten.reads (hends.tail.suffix hsuffix)
      obtain ⟨token, after, rfl, hfirst⟩ := h.exists_first
      have hnotClose : token.kind ≠ .mark .closeBrace := by
        obtain ⟨hnil, -⟩ | ⟨next, -, hkind⟩ := hfirst
        · cases hnil
        · exact hkind ▸ next.1.first_ne_mark .closeBrace
      rw [interfaceBody, if_neg hnotClose, fieldsOf_cons, ← hfields]
      exact hread.bind fun _ => hmore.bind fun _ => Reads.ok rfl rfl
termination_by lines.length
decreasing_by exact Nat.lt_succ_of_le hsuffix.length_le

end Members

/-! ## Interfaces -/

/-- The text is an interface of the given name without type parameters and without heritage;
`body` are its tokens behind the opening brace. -/
def IsInterfaceText (text name : String) (body : List Token) : Prop :=
  ∃ keyword word openBrace,
    (Tokens.ofText text.toList).tokens = keyword :: word :: openBrace :: body
    ∧ keyword.kind = .keyword .interface ∧ word.kind.isWord = true ∧ String.ofList word.text = name
    ∧ openBrace.kind = .mark .openBrace

theorem Written.declarationsOfText {text name : String} {ts : List Token}
    {lines : List (Entry × Ending)} (h : Written [] lines ts) (hends : BreaksEnd lines)
    (htext : IsInterfaceText text name ts) :
    declarationsOfText text = .ok [⟨name, .interface (fieldsOf lines)⟩] := by
  obtain ⟨keyword, word, openBrace, htokens, hkeyword, hword, rfl, hopen⟩ := htext
  exact declarationsOfText_of_interfaceBody htokens hkeyword hword hopen fun tail =>
    h.reads tail hends

/-- Line breaks in the place of separators change nothing, where they end what stands before them:
both documents are read as the properties of the interface, in order. -/
theorem declarationsOfText_of_lineBreaks {text text' name : String} {ts ts' : List Token}
    {lines : List (Entry × Ending)} (htext : IsInterfaceText text name ts)
    (h : Written [] (lines.map fun line => (line.1, .separator)) ts)
    (htext' : IsInterfaceText text' name ts') (h' : Written [] lines ts')
    (hends : BreaksEnd lines) :
    declarationsOfText text = .ok [⟨name, .interface (fieldsOf lines)⟩]
      ∧ declarationsOfText text' = declarationsOfText text := by
  have hfields : fieldsOf (lines.map fun line => (line.1, .separator)) = fieldsOf lines := by
    rw [fieldsOf, List.flatMap_map]
    rfl
  have hseparators : BreaksEnd (lines.map fun line => (line.1, .separator)) := by
    rw [BreaksEnd, List.isChain_map]
    exact (List.pairwise_of_forall fun _ _ hbreak => by cases hbreak).isChain
  have hread := h.declarationsOfText hseparators htext
  rw [hfields] at hread
  exact ⟨hread, (h'.declarationsOfText hends htext').trans hread.symm⟩

/-- A property and a method that end with their lines. -/
theorem declarationsOfText_of_lineBreaks_method :
    let text := "interface A \x7b x: any; m(): K; \x7d"
    let text' := "interface A \x7b x: any\n m(): K\n \x7d"
    ∃ ts ts' lines, IsInterfaceText text "A" ts
      ∧ Written [] (lines.map fun line => (line.1, .separator)) ts
      ∧ IsInterfaceText text' "A" ts' ∧ Written [] lines ts' ∧ BreaksEnd lines
      ∧ fieldsOf lines = [⟨"x", .unsupported "any", false⟩]
      ∧ declarationsOfText text = .ok [⟨"A", .interface (fieldsOf lines)⟩]
      ∧ declarationsOfText text' = declarationsOfText text := by
  intro text text'
  let keyword : Token :=
    ⟨.keyword .interface, [], ['i', 'n', 't', 'e', 'r', 'f', 'a', 'c', 'e'], 0⟩
  let word : Token := ⟨.identifier, [' '], ['A'], 10⟩
  let openBrace : Token := ⟨.mark .openBrace, [' '], ['\x7b'], 12⟩
  let ts : List Token :=
    [⟨.identifier, [' '], ['x'], 14⟩, ⟨.mark .colon, [], [':'], 15⟩,
      ⟨.identifier, [' '], ['a', 'n', 'y'], 17⟩, ⟨.mark .semicolon, [], [';'], 20⟩,
      ⟨.identifier, [' '], ['m'], 22⟩, ⟨.mark .openParen, [], ['('], 23⟩,
      ⟨.mark .closeParen, [], [')'], 24⟩, ⟨.mark .colon, [], [':'], 25⟩,
      ⟨.identifier, [' '], ['K'], 27⟩, ⟨.mark .semicolon, [], [';'], 28⟩,
      ⟨.mark .closeBrace, [' '], ['\x7d'], 30⟩]
  let ts' : List Token :=
    [⟨.identifier, [' '], ['x'], 14⟩, ⟨.mark .colon, [], [':'], 15⟩,
      ⟨.identifier, [' '], ['a', 'n', 'y'], 17⟩, ⟨.identifier, ['\n', ' '], ['m'], 22⟩,
      ⟨.mark .openParen, [], ['('], 23⟩, ⟨.mark .closeParen, [], [')'], 24⟩,
      ⟨.mark .colon, [], [':'], 25⟩, ⟨.identifier, [' '], ['K'], 27⟩,
      ⟨.mark .closeBrace, ['\n', ' '], ['\x7d'], 30⟩]
  have htokens : (Tokens.ofText text.toList).tokens = keyword :: word :: openBrace :: ts := by
    dsimp only [text, keyword, word, openBrace, ts]
    cbv
  have htokens' : (Tokens.ofText text'.toList).tokens = keyword :: word :: openBrace :: ts' := by
    dsimp only [text', keyword, word, openBrace, ts']
    cbv
  have htext : IsInterfaceText text "A" ts :=
    ⟨keyword, word, openBrace, htokens, rfl, rfl, rfl, rfl⟩
  have htext' : IsInterfaceText text' "A" ts' :=
    ⟨keyword, word, openBrace, htokens', rfl, rfl, rfl, rfl⟩
  let property : Entry :=
    .property false (wordShape ['x']) ['x'] false (.unsupported "any") (by decide) (by decide)
  let method : Entry :=
    .method (wordShape ['m']) ['m'] false (markShape .openParen)
      [markShape .closeParen, markShape .colon, wordShape ['K']] (by decide) (.inl rfl) (by rfl)
  have hproperty : property.shapes
      = [(.identifier, ['x']), (.mark .colon, [':']), (.identifier, ['a', 'n', 'y'])] := by decide
  have hmethod : method.shapes = [(.identifier, ['m']), (.mark .openParen, ['(']),
      (.mark .closeParen, [')']), (.mark .colon, [':']), (.identifier, ['K'])] := by decide
  let lines : List (Entry × Ending) := [(property, .lineBreak), (method, .lineBreak)]
  have h : Written [] (lines.map fun line => (line.1, .separator)) ts :=
    .separator ⟨[_, _, _], rfl, hproperty.symm⟩ rfl <|
      .separator ⟨[_, _, _, _, _], rfl, hmethod.symm⟩ rfl (.nil rfl)
  have h' : Written [] lines ts' :=
    .lineBreak ⟨[_, _, _], rfl, hproperty.symm⟩ (by decide) <|
      .lineBreak ⟨[_, _, _, _, _], rfl, hmethod.symm⟩ (by decide) (.nil rfl)
  have hends : BreaksEnd lines :=
    List.isChain_pair.mpr fun _ => ⟨by decide, fun name hname => by cases hname⟩
  exact ⟨ts, ts', lines, htext, h, htext', h', hends, rfl,
    declarationsOfText_of_lineBreaks htext h htext' h' hends⟩

/-- A property is lost with the line break between a method and it. A type goes on behind a line
break where `extends` comes, or a word behind the name of a type operator. -/
theorem declarationsOfText_of_ignoredLineBreaks :
    (declarationsOfText "interface A \x7b m(): T; x: K; \x7d"
        = .ok [⟨"A", .interface [⟨"x", .named "K", false⟩]⟩]
      ∧ declarationsOfText "interface A \x7b m(): T\n x: K; \x7d" = .ok [⟨"A", .interface []⟩])
    ∧ declarationsOfText "interface A \x7b x: T\n extends: K; \x7d"
        = .error ⟨"expected type, found `:`", ⟨2, 9⟩⟩
    ∧ declarationsOfText "interface A \x7b x: asserts\n y: T; \x7d"
        = .error ⟨"expected `;`, found `:`", ⟨2, 3⟩⟩ := by
  refine ⟨⟨by cbv, by cbv⟩, ?_, ?_⟩
  all_goals
    let opening : List Token :=
      [⟨.keyword .interface, [], ['i', 'n', 't', 'e', 'r', 'f', 'a', 'c', 'e'], 0⟩,
        ⟨.identifier, [' '], ['A'], 10⟩, ⟨.mark .openBrace, [' '], ['\x7b'], 12⟩,
        ⟨.identifier, [' '], ['x'], 14⟩, ⟨.mark .colon, [], [':'], 15⟩]
  · let tokens : List Token :=
      opening ++ [⟨.identifier, [' '], ['T'], 17⟩,
        ⟨.keyword .extends, ['\n', ' '], ['e', 'x', 't', 'e', 'n', 'd', 's'], 20⟩,
        ⟨.mark .colon, [], [':'], 27⟩, ⟨.identifier, [' '], ['K'], 29⟩,
        ⟨.mark .semicolon, [], [';'], 30⟩, ⟨.mark .closeBrace, [' '], ['\x7d'], 32⟩]
    have htokens :
        Tokens.ofText "interface A \x7b x: T\n extends: K; \x7d".toList = ⟨tokens, []⟩ := by
      dsimp only [tokens, opening]
      cbv
    have hresult :
        declarationsOfTokens [] tokens = .error ⟨.expected .type, tokens.drop 7⟩ := by
      dsimp only [tokens, opening]
      cbv
    simp only [declarationsOfText, htokens, hresult]
    exact congrArg Except.error (by decide +kernel)
  · let tokens : List Token :=
      opening ++ [⟨.identifier, [' '], ['a', 's', 's', 'e', 'r', 't', 's'], 17⟩,
        ⟨.identifier, ['\n', ' '], ['y'], 26⟩, ⟨.mark .colon, [], [':'], 27⟩,
        ⟨.identifier, [' '], ['T'], 29⟩, ⟨.mark .semicolon, [], [';'], 30⟩,
        ⟨.mark .closeBrace, [' '], ['\x7d'], 32⟩]
    have htokens :
        Tokens.ofText "interface A \x7b x: asserts\n y: T; \x7d".toList = ⟨tokens, []⟩ := by
      dsimp only [tokens, opening]
      cbv
    have hresult : declarationsOfTokens [] tokens
        = .error ⟨.expected (.token (.mark .semicolon)), tokens.drop 7⟩ := by
      dsimp only [tokens, opening]
      cbv
    simp only [declarationsOfText, htokens, hresult]
    exact congrArg Except.error (by decide +kernel)

end Specimen.Source
