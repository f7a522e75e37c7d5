import Specimen.Proofs.Source.ContinuedBody
import Specimen.Proofs.Source.EndGap
import Specimen.Proofs.Source.RoundTrip

/-!
# Properties among signatures

An interface keeps its properties and passes over methods, calls, constructors and index
signatures. A signature is passed over up to the next separator outside round, square and curly
brackets. Angle brackets are not counted, so a comma between type parameters or type arguments
counts as the end of the signature. Where no comma stands there, signatures do not damage the
properties around them. Main statement: `declarationsOfText_of_isBody`.
-/

namespace Specimen.Source

/-! ## Members -/

/-- The end of a member. -/
def isSeparator (kind : TokenKind) : Bool :=
  kind == .mark .semicolon || kind == .mark .comma

/-- The name that a token gives to a member. -/
def memberName? (token : Token) : Option (List Char) :=
  if token.kind = .string then some (unquote token.text)
  else if token.kind = .number ∨ token.kind.isWord then some token.text
  else none

/-- The question mark of an optional member, or nothing. -/
inductive IsOptional : List Token → Bool → Prop
  | absent : IsOptional [] false
  | present {token : Token} (h : token.kind = .mark .question) : IsOptional [token] true

/-- The tokens of a signature from its first bracket on: type parameters, parameters, the brackets
of an index, and the type behind them. Separators stand inside round, square and curly brackets
only. -/
def IsSignatureTail (ts : List Token) : Prop :=
  IsBalanced (fun kind => !isSeparator kind) ts

/-- One member of an interface with its separator, and the field that is kept of it: a property, a
method or a constructor behind its name, or a call or an index without one. -/
inductive IsMember : List Token → Option Field → Prop
  | property {name colon separator : Token} {chars : List Char} {question type : List Token}
      {optional : Bool} {read : TypeRef} (hname : memberName? name = some chars)
      (hquestion : IsOptional question optional) (hcolon : colon.kind = .mark .colon)
      (htype : Reads (typeExpr (type ++ [separator])) read [separator])
      (hseparator : isSeparator separator.kind = true) :
      IsMember (name :: (question ++ colon :: (type ++ [separator])))
        (some ⟨String.ofList chars, read, optional⟩)
  | named {name opening separator : Token} {chars : List Char} {question rest : List Token}
      {optional : Bool} (hname : memberName? name = some chars)
      (hquestion : IsOptional question optional)
      (hopening : opening.kind = .mark .openParen ∨ opening.kind = .mark .less)
      (hrest : IsSignatureTail (opening :: rest)) (hseparator : isSeparator separator.kind = true) :
      IsMember (name :: (question ++ opening :: (rest ++ [separator]))) none
  | unnamed {opening separator : Token} {rest : List Token}
      (hopening : opening.kind = .mark .openParen ∨ opening.kind = .mark .less
        ∨ opening.kind = .mark .openBracket)
      (hrest : IsSignatureTail (opening :: rest)) (hseparator : isSeparator separator.kind = true) :
      IsMember (opening :: (rest ++ [separator])) none

/-- The members of an interface one after the other, some of them behind the word `readonly`, and
the fields that are kept of them. -/
inductive IsBody : List Token → List Field → Prop
  | nil : IsBody [] []
  | plain {ts us : List Token} {field : Option Field} {fields : List Field} (h : IsMember ts field)
      (hrest : IsBody us fields) : IsBody (ts ++ us) (field.toList ++ fields)
  | readonly {word : Token} {ts us : List Token} {field : Option Field} {fields : List Field}
      (hword : word.kind = .keyword .readonly) (h : IsMember ts field) (hrest : IsBody us fields) :
      IsBody (word :: (ts ++ us)) (field.toList ++ fields)

/-! ## Passing over signatures -/

theorem isSeparator_iff {kind : TokenKind} :
    isSeparator kind = true ↔ kind = .mark .semicolon ∨ kind = .mark .comma := by
  simp [isSeparator]

/-- A token that is no bracket and no separator is passed over. -/
theorem skipMember_cons {token : Token} (hseparator : isSeparator token.kind = false)
    (hopening : token.kind.isOpening = false) (hclose : token.kind ≠ .mark .closeBrace)
    (rest : List Token) : skipMember (token :: rest) = skipMember rest := by
  rw [skipMember, if_neg (by simp [← isSeparator_iff, hseparator]), if_neg hclose,
    skipTree_of_isOpening hopening]

/-- A signature is passed over together with what follows it. -/
theorem skipMember_signature {ts : List Token} (h : IsSignatureTail ts) (rest : List Token) :
    skipMember (ts ++ rest) = skipMember rest := by
  cases ts with
  | nil => rfl
  | cons token after =>
      obtain ⟨later, hskip, hlater, hshort⟩ := h.exists_skipTree rest
      obtain ⟨hclosing, hallowed⟩ := h.allowed_head
      have hnotSeparator : ¬(token.kind = .mark .semicolon ∨ token.kind = .mark .comma) := by
        rw [← isSeparator_iff]
        simpa using hallowed
      have hnotBrace : token.kind ≠ .mark .closeBrace := by
        intro hbrace
        simp [hbrace, TokenKind.isClosing] at hclosing
      rw [List.cons_append, skipMember, if_neg hnotSeparator, if_neg hnotBrace, ← List.cons_append,
        hskip]
      exact skipMember_signature hlater rest
termination_by ts.length

/-- A signature is passed over up to its separator. -/
theorem skipMember_append {ts : List Token} (h : IsSignatureTail ts) {separator : Token}
    (hseparator : isSeparator separator.kind = true) (more : List Token) :
    skipMember (ts ++ separator :: more) = more := by
  rw [skipMember_signature h, skipMember, if_pos (isSeparator_iff.mp hseparator)]

/-! ## Reading members -/

section Members

variable (tail : List Char) (more : List Token)

/-- A type that is read up to a separator is read up to it, whatever follows. -/
theorem reads_typeExpr_append {type : List Token} {separator : Token} {read : TypeRef}
    (h : Reads (typeExpr (type ++ [separator])) read [separator])
    (hseparator : isSeparator separator.kind = true) :
    Reads (typeExpr (type ++ separator :: more)) read (separator :: more) := by
  obtain ⟨hshort, h⟩ := h
  obtain ⟨mark, hmark, hdot⟩ : ∃ mark, separator.kind = .mark mark ∧ mark ≠ .dot := by
    rcases isSeparator_iff.mp hseparator with hkind | hkind
    · exact ⟨_, hkind, by decide⟩
    · exact ⟨_, hkind, by decide⟩
  have hlast : EndsIn mark (type ++ [separator]) := by
    intro token htoken
    rw [List.getLast?_concat] at htoken
    cases htoken
    exact hmark
  have hsame : List.Forall₂ Token.SameWithGap (type ++ [separator]) (type ++ [separator]) :=
    List.forall₂_same.mpr fun _ _ => ⟨⟨rfl, rfl⟩, rfl⟩
  have hcontinues := continues_of_forall₂ hsame hlast hdot more
  rw [List.append_assoc, List.singleton_append] at hcontinues
  have hgives := hcontinues.typeExpr h (List.cons_ne_nil separator [])
  cases hread : typeExpr (type ++ separator :: more) with
  | error fault =>
      rw [hread] at hgives
      cases hgives
  | ok read' =>
      rw [hread] at hgives
      cases hgives with
      | ok hsame =>
          have hlength := hsame.rest.length_eq
          have hne : read'.rest ≠ [] :=
            ne_nil_of_length_le (hlength ▸ Nat.le_add_right _ _) (List.cons_ne_nil separator [])
          have hsuffix := (phrase_typeExpr hread (.inl hne)).closing.suffix
          have hrest : separator :: more <:+ read'.rest :=
            List.suffix_of_suffix_length_le (List.suffix_append type _) hsuffix
              (by rw [hlength]; simp [Nat.add_comm])
          refine Reads.ok hsame.value.symm (hrest.eq_of_length ?_).symm
          rw [hlength]
          simp [Nat.add_comm]

theorem dropOptional_of_isOptional {question : List Token} {optional : Bool}
    (h : IsOptional question optional) {token : Token} (hkind : token.kind ≠ .mark .question)
    (rest : List Token) :
    startsWith (.mark .question) (question ++ token :: rest) = optional
      ∧ dropOptional (.mark .question) (question ++ token :: rest) = token :: rest := by
  cases h with
  | absent => exact ⟨by simpa [startsWith] using hkind, if_neg hkind⟩
  | present hquestion => exact ⟨by simpa [startsWith] using hquestion, if_pos hquestion⟩

/-- What stands behind the name of a property is read as the property. -/
theorem leaves_property {question type : List Token} {optional : Bool} {colon separator : Token}
    {chars : List Char} {read : TypeRef} (hquestion : IsOptional question optional)
    (hcolon : colon.kind = .mark .colon)
    (htype : Reads (typeExpr (type ++ [separator])) read [separator])
    (hseparator : isSeparator separator.kind = true) :
    Leaves (property tail chars (question ++ colon :: (type ++ separator :: more)))
      (some ⟨String.ofList chars, read, optional⟩) more := by
  have hnot : colon.kind ≠ .mark .question := by simp [hcolon]
  obtain ⟨hoptional, hdrop⟩ :=
    dropOptional_of_isOptional hquestion hnot (type ++ separator :: more)
  rw [← hoptional]
  exact property_of_type tail hdrop hcolon (reads_typeExpr_append more htype hseparator)
    (endProperty_of_separator tail (isSeparator_iff.mp hseparator))

/-- A bracket behind a name makes a signature, which is passed over. -/
theorem property_of_signature {ts : List Token} {opening : Token} {rest : List Token}
    {chars : List Char} (hdrop : dropOptional (.mark .question) ts = opening :: rest)
    (hopening : opening.kind = .mark .openParen ∨ opening.kind = .mark .less)
    (hskip : skipMember (opening :: rest) = more) :
    Leaves (property tail chars ts) none more := by
  rw [← hdrop] at hskip
  have hsignature : (startsWith (.mark .openParen) (dropOptional (.mark .question) ts)
      || startsWith (.mark .less) (dropOptional (.mark .question) ts)) = true := by
    rcases hopening with hkind | hkind <;> simp [hdrop, startsWith, hkind]
  have hle := Nat.le_trans (length_skipMember_le (dropOptional (.mark .question) ts))
    (length_dropOptional_le (.mark .question) ts)
  rw [hskip] at hle
  refine ⟨hle, ?_⟩
  simp only [property, Remaining.skipping, Remaining.andThen, Remaining.all, hsignature, if_true,
    hskip]
  rfl

/-- What stands behind the name of a signature is passed over. -/
theorem leaves_property_signature {question rest : List Token} {optional : Bool}
    {opening separator : Token} {chars : List Char} (hquestion : IsOptional question optional)
    (hopening : opening.kind = .mark .openParen ∨ opening.kind = .mark .less)
    (hrest : IsSignatureTail (opening :: rest)) (hseparator : isSeparator separator.kind = true) :
    Leaves (property tail chars (question ++ opening :: (rest ++ separator :: more)))
      none more := by
  have hnot : opening.kind ≠ .mark .question := by
    rcases hopening with hkind | hkind <;> simp [hkind]
  exact property_of_signature tail more
    (dropOptional_of_isOptional hquestion hnot (rest ++ separator :: more)).2 hopening
    (skipMember_append hrest hseparator more)

theorem Leaves.named {tail : List Char} {name : Token} {ts more : List Token} {chars : List Char}
    {field : Option Field} (hname : memberName? name = some chars)
    (h : Leaves (property tail chars ts) field more) :
    Reads (plainMember tail (name :: ts)) field more := by
  have hnamed :
      Reads (plainMember.named tail chars : Except Fault (Taken (name :: ts) _)) field more :=
    h.bind fun _ => Reads.ok rfl rfl
  unfold memberName? at hname
  unfold plainMember
  split at hname
  · rename_i hstring
    cases hname
    simp only [hstring]
    exact hnamed
  split at hname
  · rename_i hkind
    cases hname
    rcases hkind with hnumber | hword
    · simp only [hnumber]
      exact hnamed
    · cases hkind : name.kind
      case keyword | identifier =>
        simp only [hkind]
        exact hnamed
      all_goals simp [hkind, TokenKind.isWord] at hword
  · cases hname

theorem reads_plainMember_unnamed {opening : Token} {rest : List Token}
    (hopening : opening.kind = .mark .openParen ∨ opening.kind = .mark .less
      ∨ opening.kind = .mark .openBracket)
    (hskip : skipMember (opening :: rest) = more) :
    Reads (plainMember tail (opening :: rest)) none more := by
  rw [skipMember, if_neg (by rcases hopening with h | h | h <;> simp [h]),
    if_neg (by rcases hopening with h | h | h <;> simp [h])] at hskip
  unfold plainMember
  rcases hopening with hkind | hkind | hkind
  all_goals
    simp only [hkind]
    exact Reads.ok rfl hskip

variable {tail more}

theorem concat_append {α : Type} (x : α) (xs : List α) (y : α) (zs : List α) :
    x :: (xs ++ [y]) ++ zs = x :: (xs ++ y :: zs) := by
  simp

/-- A member is read as its field, or passed over. -/
theorem IsMember.reads {ts : List Token} {field : Option Field} (h : IsMember ts field) :
    Reads (plainMember tail (ts ++ more)) field more := by
  cases h with
  | property hname hquestion hcolon htype hseparator =>
      rw [List.cons_append, List.append_assoc, concat_append]
      exact (leaves_property tail more hquestion hcolon htype hseparator).named hname
  | named hname hquestion hopening hrest hseparator =>
      rw [List.cons_append, List.append_assoc, concat_append]
      exact (leaves_property_signature tail more hquestion hopening hrest hseparator).named hname
  | unnamed hopening hrest hseparator =>
      rw [concat_append]
      exact reads_plainMember_unnamed tail more hopening (skipMember_append hrest hseparator more)

theorem memberName?_of_mark {token : Token} {mark : Mark} (h : token.kind = .mark mark) :
    memberName? token = none := by
  simp [memberName?, h, TokenKind.isWord]

theorem ne_mark_of_memberName? {token : Token} {chars : List Char}
    (h : memberName? token = some chars) (mark : Mark) : token.kind ≠ .mark mark := by
  intro hkind
  rw [memberName?_of_mark hkind] at h
  cases h

/-- A member starts with a name or with the bracket of a signature. -/
theorem IsMember.exists_cons {ts : List Token} {field : Option Field} (h : IsMember ts field) :
    ∃ token rest, ts = token :: rest
      ∧ ∀ mark ∈ [Mark.closeBrace, .colon, .question, .semicolon], token.kind ≠ .mark mark := by
  cases h with
  | property hname | named hname =>
      exact ⟨_, _, rfl, fun mark _ => ne_mark_of_memberName? hname mark⟩
  | unnamed hopening =>
      refine ⟨_, _, rfl, fun mark hmark hkind => ?_⟩
      rw [hkind] at hopening
      rcases hopening with h | h | h <;> cases h <;> simp at hmark

/-- The word is dropped where what comes behind it does not make it a name. -/
theorem dropReadonly_of_word {word token : Token} {rest : List Token}
    (hword : word.kind = .keyword .readonly)
    (h : ∀ mark ∈ [Mark.colon, .question, .semicolon], token.kind ≠ .mark mark) :
    dropReadonly (word :: token :: rest) = token :: rest := by
  have hcolon := h .colon (by simp)
  have hquestion := h .question (by simp)
  have hsemicolon := h .semicolon (by simp)
  exact if_pos ⟨hword, by simp [startsWith, hcolon, hquestion, hsemicolon]⟩

/-- The word in front of a member is not its name. -/
theorem IsMember.dropReadonly_word {ts : List Token} {field : Option Field} (h : IsMember ts field)
    {word : Token} (hword : word.kind = .keyword .readonly) :
    dropReadonly (word :: (ts ++ more)) = ts ++ more := by
  obtain ⟨token, rest, rfl, hkind⟩ := h.exists_cons
  exact dropReadonly_of_word hword fun mark hmark => hkind mark (List.mem_cons_of_mem _ hmark)

theorem dropReadonly_of_name {name next : Token} {rest : List Token}
    (h : next.kind = .mark .colon ∨ next.kind = .mark .question) :
    dropReadonly (name :: next :: rest) = name :: next :: rest :=
  if_neg (by rcases h with h | h <;> simp [startsWith, h])

/-- A member begins with its name even if that is `readonly`. Only a method of this name looks
like a call behind the word, and it is passed over all the same. -/
theorem IsMember.exists_dropReadonly {ts : List Token} {field : Option Field}
    (h : IsMember ts field) (more : List Token) :
    ∃ ts', IsMember ts' field ∧ dropReadonly (ts ++ more) = ts' ++ more := by
  cases h with
  | property hname hquestion hcolon htype hseparator =>
      refine ⟨_, .property hname hquestion hcolon htype hseparator, ?_⟩
      cases hquestion with
      | absent => exact dropReadonly_of_name (.inl hcolon)
      | present hkind => exact dropReadonly_of_name (.inr hkind)
  | @named name _ _ _ _ _ _ hname hquestion hopening hrest hseparator =>
      cases hquestion with
      | present hkind =>
          exact ⟨_, .named hname (.present hkind) hopening hrest hseparator,
            dropReadonly_of_name (.inr hkind)⟩
      | absent =>
          by_cases hword : name.kind = .keyword .readonly
          · refine ⟨_, .unnamed (hopening.imp id .inl) hrest hseparator, if_pos ⟨hword, ?_⟩⟩
            rcases hopening with h | h <;> simp [startsWith, h]
          · exact ⟨_, .named hname .absent hopening hrest hseparator,
              if_neg fun hboth => hword hboth.1⟩
  | unnamed hopening hrest hseparator =>
      refine ⟨_, .unnamed hopening hrest hseparator, if_neg fun hboth => ?_⟩
      rcases hopening with h | h | h <;> simp [h] at hboth

/-- The fields of a body are its properties, in order. -/
theorem IsBody.reads {name : String} {ts : List Token} {fields : List Field} (h : IsBody ts fields)
    {close : Token} (hclose : close.kind = .mark .closeBrace) :
    Reads (interfaceBody tail name (ts ++ close :: more)) fields more := by
  induction h with
  | nil =>
      rw [List.nil_append, interfaceBody, if_pos hclose]
      exact Reads.ok rfl rfl
  | @plain ts us field fields h hrest ih =>
      obtain ⟨ts', h', hdrop⟩ := h.exists_dropReadonly (us ++ close :: more)
      have hmember : Reads (Source.member tail (ts ++ (us ++ close :: more))) field
          (us ++ close :: more) := by
        refine Reads.member tail ?_
        rw [hdrop]
        exact h'.reads
      obtain ⟨token, rest, rfl, hkind⟩ := h.exists_cons
      rw [List.append_assoc]
      rw [List.cons_append] at hmember ⊢
      rw [interfaceBody, if_neg (hkind .closeBrace (by simp))]
      exact hmember.bind fun _ => ih.bind fun _ => Reads.ok rfl rfl
  | @readonly word ts us field fields hword h hrest ih =>
      have hmember : Reads (Source.member tail (word :: (ts ++ (us ++ close :: more)))) field
          (us ++ close :: more) := by
        refine Reads.member tail ?_
        rw [h.dropReadonly_word hword]
        exact h.reads
      rw [List.cons_append, List.append_assoc, interfaceBody, if_neg (by simp [hword])]
      exact hmember.bind fun _ => ih.bind fun _ => Reads.ok rfl rfl

end Members

/-! ## Interfaces -/

/-- A document with one interface without type parameters and without heritage is read as it. -/
theorem declarationsOfText_of_interfaceBody {text : String} {keyword name openBrace : Token}
    {body : List Token} {fields : List Field}
    (htext : (Tokens.ofText text.toList).tokens = keyword :: name :: openBrace :: body)
    (hkeyword : keyword.kind = .keyword .interface) (hname : name.kind.isWord = true)
    (hopen : openBrace.kind = .mark .openBrace)
    (hbody : ∀ tail, Reads (interfaceBody tail (String.ofList name.text) body) fields []) :
    declarationsOfText text = .ok [⟨String.ofList name.text, .interface fields⟩] := by
  have hread (tail : List Char) :
      declarationsOfTokens tail (keyword :: name :: openBrace :: body)
        = .ok [⟨String.ofList name.text, .interface fields⟩] := by
    obtain ⟨hshort, hread⟩ := reads_plainInterface hname hopen tail (hbody tail)
    rw [declarationsOfTokens_cons, declaration?_of_interface hkeyword, hread]
    show (declarationsOfTokens tail []).map _ = _
    rw [declarationsOfTokens]
    rfl
  rw [declarationsOfText, htext]
  simp only [hread]

/-- An interface whose members are properties and signatures is read, and its fields are exactly the
properties, in order. -/
theorem declarationsOfText_of_isBody {text : String} {keyword name openBrace closeBrace : Token}
    {ts : List Token} {fields : List Field}
    (htext : (Tokens.ofText text.toList).tokens
      = keyword :: name :: openBrace :: (ts ++ [closeBrace]))
    (hkeyword : keyword.kind = .keyword .interface) (hname : name.kind.isWord = true)
    (hopen : openBrace.kind = .mark .openBrace) (hclose : closeBrace.kind = .mark .closeBrace)
    (h : IsBody ts fields) :
    declarationsOfText text = .ok [⟨String.ofList name.text, .interface fields⟩] :=
  declarationsOfText_of_interfaceBody htext hkeyword hname hopen fun _ => h.reads hclose

/-- A method with a comma between its parameters, and a property behind it. -/
theorem declarationsOfText_of_isBody_method :
    let text := "interface A \x7b m<T>(a, b): T; x: T; \x7d"
    ∃ keyword name openBrace closeBrace ts fields,
      (Tokens.ofText text.toList).tokens = keyword :: name :: openBrace :: (ts ++ [closeBrace])
      ∧ keyword.kind = .keyword .interface ∧ name.kind.isWord = true
      ∧ openBrace.kind = .mark .openBrace ∧ closeBrace.kind = .mark .closeBrace
      ∧ IsBody ts fields ∧ fields = [⟨"x", .named "T", false⟩]
      ∧ declarationsOfText text = .ok [⟨"A", .interface [⟨"x", .named "T", false⟩]⟩] := by
  intro text
  let parameters : List Token :=
    [⟨.mark .less, [], ['<'], 15⟩, ⟨.identifier, [], ['T'], 16⟩, ⟨.mark .greater, [], ['>'], 17⟩,
      ⟨.mark .openParen, [], ['('], 18⟩, ⟨.identifier, [], ['a'], 19⟩,
      ⟨.mark .comma, [], [','], 20⟩,
      ⟨.identifier, [' '], ['b'], 22⟩, ⟨.mark .closeParen, [], [')'], 23⟩,
      ⟨.mark .colon, [], [':'], 24⟩, ⟨.identifier, [' '], ['T'], 26⟩]
  let method : List Token :=
    ⟨.identifier, [' '], ['m'], 14⟩ :: (parameters ++ [⟨.mark .semicolon, [], [';'], 27⟩])
  let type : Token := ⟨.identifier, [' '], ['T'], 32⟩
  let separator : Token := ⟨.mark .semicolon, [], [';'], 33⟩
  let property : List Token :=
    [⟨.identifier, [' '], ['x'], 29⟩, ⟨.mark .colon, [], [':'], 30⟩, type, separator]
  have htype : Reads (typeExpr ([type] ++ [separator])) (.named "T") [separator] :=
    ⟨by decide, by cbv⟩
  have htail : IsSignatureTail parameters := rfl
  have hmethod : IsMember method none := .named rfl .absent (.inr rfl) htail rfl
  have hproperty : IsMember property (some ⟨"x", .named "T", false⟩) :=
    .property rfl .absent rfl htype rfl
  have htext : (Tokens.ofText text.toList).tokens
      = ⟨.keyword .interface, [], ['i', 'n', 't', 'e', 'r', 'f', 'a', 'c', 'e'], 0⟩
        :: ⟨.identifier, [' '], ['A'], 10⟩ :: ⟨.mark .openBrace, [' '], ['\x7b'], 12⟩
        :: ((method ++ (property ++ [])) ++ [⟨.mark .closeBrace, [' '], ['\x7d'], 35⟩]) := by
    dsimp only [text, method, parameters, property, type, separator]
    cbv
  have hbody : IsBody (method ++ (property ++ [])) [⟨"x", .named "T", false⟩] :=
    .plain hmethod (.plain hproperty .nil)
  exact ⟨_, _, _, _, _, _, htext, rfl, rfl, rfl, rfl, hbody, rfl,
    declarationsOfText_of_isBody htext rfl rfl rfl rfl hbody⟩

/-- A comma between type parameters counts as the end of the method. -/
theorem declarationsOfText_of_typeParameters :
    declarationsOfText "interface A \x7b m<K, V>(): V; x: K; \x7d"
      = .error ⟨"expected `;`, found `>`", ⟨1, 21⟩⟩ := by
  let tokens : List Token :=
    [⟨.keyword .interface, [], ['i', 'n', 't', 'e', 'r', 'f', 'a', 'c', 'e'], 0⟩,
      ⟨.identifier, [' '], ['A'], 10⟩, ⟨.mark .openBrace, [' '], ['\x7b'], 12⟩,
      ⟨.identifier, [' '], ['m'], 14⟩, ⟨.mark .less, [], ['<'], 15⟩, ⟨.identifier, [], ['K'], 16⟩,
      ⟨.mark .comma, [], [','], 17⟩, ⟨.identifier, [' '], ['V'], 19⟩,
      ⟨.mark .greater, [], ['>'], 20⟩, ⟨.mark .openParen, [], ['('], 21⟩,
      ⟨.mark .closeParen, [], [')'], 22⟩, ⟨.mark .colon, [], [':'], 23⟩,
      ⟨.identifier, [' '], ['V'], 25⟩, ⟨.mark .semicolon, [], [';'], 26⟩,
      ⟨.identifier, [' '], ['x'], 28⟩, ⟨.mark .colon, [], [':'], 29⟩,
      ⟨.identifier, [' '], ['K'], 31⟩, ⟨.mark .semicolon, [], [';'], 32⟩,
      ⟨.mark .closeBrace, [' '], ['\x7d'], 34⟩]
  have htokens :
      Tokens.ofText "interface A \x7b m<K, V>(): V; x: K; \x7d".toList = ⟨tokens, []⟩ := by
    cbv
  have hresult : declarationsOfTokens [] tokens
      = .error ⟨.expected (.token (.mark .semicolon)), tokens.drop 8⟩ := by cbv
  simp only [declarationsOfText, htokens, hresult]
  exact congrArg Except.error (by decide +kernel)

end Specimen.Source
