import Specimen.Proofs.Source.TypeText

/-!
# Reading written types

The tokens of a written type are read as the type, however deep types are inside each other; words
that are types of their own, such as `any`, may stand among them (`isPlain`). What follows a type
has to end it (`EndsType`), as separators and closing brackets do. Array suffixes are read by a
loop behind the type that they are put on, so `reads_operand` says what is left to that loop. Main
statement: `reads_typeExpr`.
-/

namespace Specimen.Source

/-! ## Results of readers -/

/-- The reader gives the value and leaves the rest. -/
def Reads {α : Type} {ts : List Token} (result : Except Fault (Taken ts α)) (value : α)
    (rest : List Token) : Prop :=
  ∃ h, result = .ok ⟨value, rest, h⟩

theorem Reads.bind {α β : Type} {ts ts' rest rest' : List Token}
    {result : Except Fault (Taken ts α)} {next : Taken ts α → Except Fault (Taken ts' β)} {x : α}
    {y : β} (h : Reads result x rest) (hnext : ∀ hshort, Reads (next ⟨x, rest, hshort⟩) y rest') :
    Reads (result >>= next) y rest' := by
  obtain ⟨hshort, rfl⟩ := h
  exact hnext hshort

theorem Reads.ok {α : Type} {ts rest : List Token} {t : Taken ts α} {x : α} (hvalue : t.value = x)
    (hrest : t.rest = rest) : Reads (.ok t) x rest := by
  obtain rfl := hvalue
  obtain rfl := hrest
  exact ⟨t.shorter, rfl⟩

/-! ## Types without marks of their own -/

mutual

/-- The type consists of names, built-in types, generic types and array suffixes: a type that can be
written, where words that are types of their own may stand too. -/
def isPlain : TypeRef → Bool
  | .primitive _ => true
  | .named name => isTypeName name && (Primitive.ofKeyword? name).isNone
  | .generic name args => isTypeName name && arePlain args
  | .arrayOf element => isPlain element
  | .unsupported text => keywordTypes.contains text
termination_by structural type => type

/-- All types of a list are plain. -/
def arePlain : List TypeRef → Bool
  | [] => true
  | arg :: args => isPlain arg && arePlain args
termination_by structural args => args

end

mutual

theorem isPlain_of_isWritable : (type : TypeRef) → isWritable type = true → isPlain type = true
  | .primitive _, _ => rfl
  | .named _, h => h
  | .generic name args, h => by
      rw [isWritable, Bool.and_eq_true] at h
      rw [isPlain, h.1, arePlain_of_areWritable args h.2]
      rfl
  | .arrayOf element, h => isPlain_of_isWritable element h
  | .unsupported _, h => by cases h
termination_by structural type => type

theorem arePlain_of_areWritable : (args : List TypeRef) → areWritable args = true →
    arePlain args = true
  | [], _ => rfl
  | arg :: args, h => by
      rw [areWritable, Bool.and_eq_true] at h
      rw [arePlain, isPlain_of_isWritable arg h.1, arePlain_of_areWritable args h.2]
      rfl
termination_by structural args => args

end

/-! ## What ends a type -/

/-- What follows a type is no part of it, apart from brackets that make an array of it. -/
structure EndsOperand (type : TypeRef) (ts : List Token) : Prop where
  notDot : startsWith (.mark .dot) ts = false
  notLess : startsWith (.mark .less) ts = false
  /-- Before a word, some names are operators. -/
  notWord : ∀ name, type = .named name → typeOperators.contains name = true →
    startsWithWord ts = false

/-- What follows a type is no part of it. -/
structure EndsType (type : TypeRef) (ts : List Token) : Prop extends EndsOperand type ts where
  notBracket : startsWith (.mark .openBracket) ts = false
  notJoint : ∀ token ∈ ts.head?, isJoint token.kind = false
  notExtends : startsWith (.keyword .extends) ts = false

section Ends

variable {type : TypeRef} {ts rest : List Token} {token : Token} {mark : Mark}

theorem endsOperand_of_mark (h : token.kind = .mark mark) (hmark : mark ∉ [Mark.dot, .less]) :
    EndsOperand type (token :: rest) := by
  simp only [List.mem_cons, List.not_mem_nil, or_false, not_or] at hmark
  constructor
  · simp [startsWith, h, hmark.1]
  · simp [startsWith, h, hmark.2]
  · simp [startsWithWord, h, TokenKind.isWord]

theorem endsType_of_mark (h : token.kind = .mark mark)
    (hmark : mark ∉ [Mark.dot, .less, .openBracket, .pipe, .ampersand]) :
    EndsType type (token :: rest) := by
  simp only [List.mem_cons, List.not_mem_nil, or_false, not_or] at hmark
  refine ⟨endsOperand_of_mark h (by simp [hmark]), ?_, ?_, ?_⟩
  · simp [startsWith, h, hmark]
  · simp [isJoint, h, hmark]
  · simp [startsWith, h]

theorem EndsType.arraySuffixes (h : EndsType type ts) (start : List Token) :
    arraySuffixes start type ts = (type, ts) := by
  cases ts with
  | nil => rw [Source.arraySuffixes]
  | cons token rest =>
      rw [Source.arraySuffixes]
      exact if_neg (by simpa [startsWith] using h.notBracket)

end Ends

/-! ## Names -/

theorem dottedTail_parts {parts : List (List Char)} {ts after : List Token}
    (h : Spells (parts.flatMap partShapes) ts after)
    (hafter : startsWith (.mark .dot) after = false) :
    dottedTail ts = (parts.flatMap ('.' :: ·), after) := by
  induction parts generalizing ts with
  | nil =>
      obtain rfl := Spells.nil_iff.mp h
      unfold dottedTail
      split
      · rename_i dot word rest
        have hdot : dot.kind ≠ .mark .dot := by simpa [startsWith] using hafter
        rw [if_neg fun hboth => hdot hboth.1]
        rfl
      · rfl
  | cons part parts ih =>
      rw [List.flatMap_cons, partShapes, List.cons_append] at h
      obtain ⟨dot, ts, rfl, hdot, -, h⟩ := Spells.cons_iff.mp h
      obtain ⟨word, ts, rfl, hword, htext, h⟩ := Spells.cons_iff.mp h
      have hisWord : word.kind.isWord = true := by
        rw [hword]
        exact isWord_wordKind part
      rw [dottedTail, if_pos ⟨hdot, hisWord⟩, ih h, htext]
      rfl

section Names

variable {token : Token} {ts after rest : List Token} {more : List Char}

/-- Where a name begins, no other form of type does. -/
structure BeginsName (token : Token) (ts : List Token) : Prop where
  word : token.kind.isWord = true
  notReserved : isReserved token.text = false
  notOperator : typeOperators.contains (String.ofList token.text) = true → startsWithWord ts = false
  kind : token.kind = wordKind token.text

theorem BeginsName.ne_readonly (h : BeginsName token ts) : token.kind ≠ .keyword .readonly := by
  intro hkind
  have htext := text_of_wordKind (h.kind ▸ hkind)
  have hnot := h.notReserved
  rw [← htext] at hnot
  revert hnot
  decide

theorem BeginsName.not_keywordType (h : BeginsName token ts) :
    keywordTypes.contains (String.ofList token.text) = false := by
  have hnot := h.notReserved
  simp only [isReserved, Bool.or_eq_false_iff] at hnot
  exact hnot.2

/-- A word that makes no type of the type behind it is a type of its own or a name, which is read
with its arguments or stands alone. -/
theorem primaryType_of_word (hword : token.kind.isWord = true)
    (hreadonly : token.kind ≠ .keyword .readonly)
    (hoperator : typeOperators.contains (String.ofList token.text) = true →
      startsWithWord ts = false) :
    primaryType (token :: ts) =
      if keywordTypes.contains (String.ofList token.text) then
        .ok (.one token ts (.unsupported (String.ofList token.text)))
      else if startsWith (.mark .less) (dottedTail ts).2 then do
        let args ← typeArgs (dottedTail ts).2.tail
        return (args.inside (length_dottedTail_lt token ts)).map
          (.generic (String.ofList (token.text ++ (dottedTail ts).1)) ·)
      else
        .ok (.ofRemaining (typeOfName (String.ofList (token.text ++ (dottedTail ts).1)))
          ⟨(dottedTail ts).2, length_dottedTail_le ts⟩ (length_lt_cons token ts)) := by
  have hnot : ¬(typeOperators.contains (String.ofList token.text) && startsWithWord ts) = true := by
    intro hboth
    obtain ⟨hcontains, hstarts⟩ := Bool.and_eq_true_iff.mp hboth
    simp [hoperator hcontains] at hstarts
  rw [primaryType_of_isWord hword hreadonly, if_neg hnot]

/-- A word that is a type of its own is read by itself. -/
theorem reads_keywordType (h : keywordTypes.contains (String.ofList token.text) = true)
    (hkind : token.kind = wordKind token.text) :
    Reads (primaryType (token :: ts)) (.unsupported (String.ofList token.text)) ts := by
  have hreadonly : token.kind ≠ .keyword .readonly := by
    intro hreadonly
    have htext := text_of_wordKind (hkind ▸ hreadonly)
    rw [← htext] at h
    revert h
    decide
  have hoperator : typeOperators.contains (String.ofList token.text) = true →
      startsWithWord ts = false := by
    have hnot : ∀ word ∈ keywordTypes, typeOperators.contains word = false := by decide
    intro hcontains
    rw [hnot _ (by simpa using h)] at hcontains
    cases hcontains
  rw [primaryType_of_word (hkind ▸ isWord_wordKind _) hreadonly hoperator, if_pos h]
  exact Reads.ok rfl rfl

/-- A name is read with its arguments, or it stands alone. -/
theorem BeginsName.primaryType (h : BeginsName token ts) :
    primaryType (token :: ts) =
      if startsWith (.mark .less) (dottedTail ts).2 then do
        let args ← typeArgs (dottedTail ts).2.tail
        return (args.inside (length_dottedTail_lt token ts)).map
          (.generic (String.ofList (token.text ++ (dottedTail ts).1)) ·)
      else
        .ok (.ofRemaining (typeOfName (String.ofList (token.text ++ (dottedTail ts).1)))
          ⟨(dottedTail ts).2, length_dottedTail_le ts⟩ (length_lt_cons token ts)) := by
  rw [primaryType_of_word h.word h.ne_readonly h.notOperator, h.not_keywordType,
    if_neg Bool.false_ne_true]

theorem reads_name (h : BeginsName token ts) (htail : dottedTail ts = (more, after))
    (hless : startsWith (.mark .less) after = false) :
    Reads (primaryType (token :: ts)) (typeOfName (String.ofList (token.text ++ more))) after := by
  rw [h.primaryType, if_neg (by simp [htail, hless])]
  exact Reads.ok (by simp [Taken.ofRemaining, htail]) (by simp [Taken.ofRemaining, htail])

theorem reads_generic (h : BeginsName token ts) {less : Token} {args : List TypeRef}
    (htail : dottedTail ts = (more, less :: after)) (hless : less.kind = .mark .less)
    (hargs : Reads (typeArgs after) args rest) :
    Reads (primaryType (token :: ts)) (.generic (String.ofList (token.text ++ more)) args)
      rest := by
  have hargs : Reads (typeArgs (dottedTail ts).2.tail) args rest := by rwa [htail]
  rw [h.primaryType, if_pos (by simp [htail, startsWith, hless])]
  refine hargs.bind fun _ => ?_
  exact Reads.ok (by simp [Taken.inside, htail]) rfl

/-- The tokens of a dotted name, before anything but a dot. -/
theorem beginsName_of_spells {name : String} (h : isTypeName name = true)
    (hts : Spells (dottedShapes (nameParts name)) ts after)
    (hword : typeOperators.contains name = true → startsWithWord after = false)
    (hdot : startsWith (.mark .dot) after = false) :
    ∃ token ts' more, ts = token :: ts' ∧ BeginsName token ts' ∧ dottedTail ts' = (more, after)
      ∧ String.ofList (token.text ++ more) = name := by
  obtain ⟨first, parts, hparts, hfirst, hreserved, hall, hname⟩ := nameParts_cons h
  rw [hparts, dottedShapes] at hts
  obtain ⟨token, ts', rfl, hkind, htext, hts⟩ := Spells.cons_iff.mp hts
  refine ⟨token, ts', parts.flatMap ('.' :: ·), rfl, ?_, dottedTail_parts hts hdot, ?_⟩
  · refine ⟨hkind ▸ isWord_wordKind first, htext ▸ hreserved, ?_, htext.symm ▸ hkind⟩
    cases parts with
    | nil =>
        obtain rfl := Spells.nil_iff.mp hts
        rw [List.flatMap_nil, List.append_nil] at hname
        rwa [htext, ← hname, String.ofList_toList]
    | cons part parts =>
        obtain ⟨dot, ts, rfl, hdot, -, -⟩ := Spells.cons_iff.mp hts
        simp [startsWithWord, hdot, TokenKind.isWord]
  · rw [htext, ← hname, String.ofList_toList]

end Names

theorem startsWithWord_of_dotted {name : String} (h : isTypeName name = true)
    {ts rest : List Token} (hts : Spells (dottedShapes (nameParts name)) ts rest) :
    startsWithWord ts = true := by
  obtain ⟨first, parts, hparts, -⟩ := nameParts_cons h
  rw [hparts, dottedShapes] at hts
  obtain ⟨token, ts, rfl, hkind, -, -⟩ := Spells.cons_iff.mp hts
  rw [startsWithWord, hkind]
  exact isWord_wordKind first

/-- The tokens of a type begin with a word. -/
theorem startsWithWord_of_type : (type : TypeRef) → isPlain type = true →
    ∀ {ts rest : List Token}, Spells (typeShapes type) ts rest → startsWithWord ts = true
  | .primitive type, _, ts, rest, hts => by
      obtain ⟨token, ts, rfl, hkind, -, -⟩ := Spells.cons_iff.mp hts
      rw [startsWithWord, hkind]
      exact isWord_wordKind _
  | .named name, h, ts, rest, hts => by
      simp only [isPlain, Bool.and_eq_true] at h
      exact startsWithWord_of_dotted h.1 hts
  | .generic name args, h, ts, rest, hts => by
      simp only [isPlain, Bool.and_eq_true] at h
      obtain ⟨middle, hname, -⟩ := Spells.append_iff.mp hts
      exact startsWithWord_of_dotted h.1 hname
  | .arrayOf element, h, ts, rest, hts => by
      obtain ⟨middle, helement, -⟩ := Spells.append_iff.mp hts
      exact startsWithWord_of_type element h helement
  | .unsupported text, _, ts, rest, hts => by
      obtain ⟨token, ts, rfl, hkind, -, -⟩ := Spells.cons_iff.mp hts
      rw [startsWithWord, hkind]
      exact isWord_wordKind _
termination_by structural type => type

/-! ## From one reader to the next -/

section Layers

variable {ts middle rest : List Token} {base type : TypeRef}

theorem Reads.postfixType (h : Reads (primaryType ts) base middle)
    (hsuffixes : arraySuffixes ts base middle = (type, rest)) :
    Reads (postfixType ts) type rest := by
  rw [Source.postfixType]
  refine h.bind fun _ => ?_
  exact Reads.ok (congrArg Prod.fst hsuffixes) (congrArg Prod.snd hsuffixes)

theorem Reads.operands (h : Reads (Source.postfixType ts) type rest)
    (hrest : ∀ token ∈ rest.head?, isJoint token.kind = false) :
    Reads (operands ts) (some type) rest := by
  rw [Source.operands]
  refine h.bind fun _ => ?_
  cases rest with
  | nil => exact Reads.ok rfl rfl
  | cons token rest =>
      dsimp only
      rw [if_neg (by simp [hrest token rfl])]
      exact Reads.ok rfl rfl

theorem dropJoint_of_word (h : startsWithWord ts = true) : dropJoint ts = ts := by
  cases ts with
  | nil => rfl
  | cons token ts =>
      refine if_neg ?_
      intro hjoint
      simp only [isJoint, Bool.or_eq_true, beq_iff_eq] at hjoint
      rw [startsWithWord] at h
      rcases hjoint with hjoint | hjoint <;> simp [hjoint, TokenKind.isWord] at h

theorem Reads.typeExpr (h : Reads (Source.operands ts) (some type) rest)
    (hword : startsWithWord ts = true) (hrest : startsWith (.keyword .extends) rest = false) :
    Reads (typeExpr ts) type rest := by
  have hchain : Reads (Source.operands (dropJoint ts)) (some type) rest := by
    rwa [dropJoint_of_word hword]
  rw [Source.typeExpr]
  refine hchain.bind fun _ => ?_
  rw [if_neg (by simp [hrest])]
  exact Reads.ok rfl rfl

/-- A type that ends where its suffixes end is the whole type. -/
theorem Reads.typeExpr_of_primary (h : Reads (primaryType ts) base middle)
    (hsuffixes : arraySuffixes ts base middle = arraySuffixes ts type rest)
    (hword : startsWithWord ts = true) (hrest : EndsType type rest) :
    Reads (Source.typeExpr ts) type rest := by
  rw [hrest.arraySuffixes] at hsuffixes
  exact ((h.postfixType hsuffixes).operands hrest.notJoint).typeExpr hword hrest.notExtends

theorem ne_greater_of_word {token : Token} (h : startsWithWord (token :: ts) = true) :
    token.kind ≠ .mark .greater := by
  intro hkind
  simp [startsWithWord, hkind, TokenKind.isWord] at h

theorem Reads.typeArgs_last {close : Token} (h : Reads (Source.typeExpr ts) type (close :: rest))
    (hword : startsWithWord ts = true) (hclose : close.kind = .mark .greater) :
    Reads (typeArgs ts) [type] rest := by
  cases ts with
  | nil => cases hword
  | cons token ts =>
      rw [typeArgs, if_neg (ne_greater_of_word hword)]
      refine h.bind fun _ => ?_
      dsimp only
      rw [if_neg (by simp [hclose]), if_pos hclose]
      exact Reads.ok rfl rfl

theorem Reads.typeArgs_cons {separator : Token} {args : List TypeRef}
    (h : Reads (Source.typeExpr ts) type (separator :: middle)) (hword : startsWithWord ts = true)
    (hseparator : separator.kind = .mark .comma) (hargs : Reads (typeArgs middle) args rest) :
    Reads (typeArgs ts) (type :: args) rest := by
  cases ts with
  | nil => cases hword
  | cons token ts =>
      rw [typeArgs, if_neg (ne_greater_of_word hword)]
      refine h.bind fun _ => ?_
      dsimp only
      rw [if_pos hseparator]
      exact hargs.bind fun _ => Reads.ok rfl rfl

end Layers

/-! ## Types and their arguments -/

mutual

/-- The tokens of a type are read as the type without the array suffixes at its end, and these are
then put behind it. -/
theorem reads_operand : (type : TypeRef) → isPlain type = true →
    ∀ {ts rest : List Token}, Spells (typeShapes type) ts rest → EndsOperand type rest →
    ∃ base middle, Reads (primaryType ts) base middle
      ∧ ∀ start, arraySuffixes start base middle = arraySuffixes start type rest
  | .primitive type, _, ts, rest, hts, hrest => by
      obtain ⟨token, ts, rfl, hkind, htext, hts⟩ := Spells.cons_iff.mp hts
      obtain rfl := Spells.nil_iff.mp hts
      have hbegins : BeginsName token ts := by
        refine ⟨hkind ▸ isWord_wordKind _, ?_, ?_, htext.symm ▸ hkind⟩
        · rw [htext]
          cases type <;> decide
        · rw [htext]
          cases type <;> exact fun hcontains => absurd hcontains (by decide)
      have hnone : Spells (([] : List (List Char)).flatMap partShapes) ts ts :=
        Spells.nil_iff.mpr rfl
      have htail : dottedTail ts = ([], ts) := dottedTail_parts hnone hrest.notDot
      refine ⟨_, ts, reads_name hbegins htail hrest.notLess, ?_⟩
      intro start
      rw [htext, List.append_nil, String.ofList_toList, typeOfName, Primitive.ofKeyword?_keyword]
  | .named name, h, ts, rest, hts, hrest => by
      simp only [isPlain, Bool.and_eq_true] at h
      obtain ⟨token, ts, more, rfl, hbegins, htail, hname⟩ := beginsName_of_spells h.1 hts
        (hrest.notWord name rfl) hrest.notDot
      refine ⟨_, rest, reads_name hbegins htail hrest.notLess, ?_⟩
      intro start
      rw [hname, typeOfName, Option.isNone_iff_eq_none.mp h.2]
  | .generic name args, h, ts, rest, hts, hrest => by
      simp only [isPlain, Bool.and_eq_true] at h
      obtain ⟨middle, hname, hargs⟩ := Spells.append_iff.mp hts
      obtain ⟨less, middle, rfl, hless, -, hargs⟩ := Spells.cons_iff.mp hargs
      obtain ⟨token, ts, more, rfl, hbegins, htail, hname⟩ := beginsName_of_spells h.1 hname
        (by simp [startsWithWord, hless, TokenKind.isWord]) (by simp [startsWith, hless])
      refine ⟨_, rest, reads_generic hbegins htail hless (reads_args args h.2 hargs), ?_⟩
      intro start
      rw [hname]
  | .arrayOf element, h, ts, rest, hts, hrest => by
      obtain ⟨middle, helement, hbrackets⟩ := Spells.append_iff.mp hts
      obtain ⟨open_, middle, rfl, hopen, -, hbrackets⟩ := Spells.cons_iff.mp hbrackets
      obtain ⟨close, middle, rfl, hclose, -, hbrackets⟩ := Spells.cons_iff.mp hbrackets
      obtain rfl := Spells.nil_iff.mp hbrackets
      -- the loop over the suffixes of the element does not stop before these brackets
      obtain ⟨base, left, hread, hsuffixes⟩ := reads_operand element h helement
        (endsOperand_of_mark hopen (by decide))
      refine ⟨base, left, hread, ?_⟩
      intro start
      rw [hsuffixes, arraySuffixes, if_pos hopen, if_pos (by simp [startsWith, hclose])]
      rfl
  | .unsupported text, h, ts, rest, hts, _ => by
      obtain ⟨token, ts, rfl, hkind, htext, hts⟩ := Spells.cons_iff.mp hts
      obtain rfl := Spells.nil_iff.mp hts
      refine ⟨_, ts, reads_keywordType ?_ ?_, fun start => ?_⟩
      · rwa [htext, String.ofList_toList]
      · rw [htext, hkind]
      · rw [htext, String.ofList_toList]
termination_by structural type => type

/-- The tokens of type arguments and the closing bracket are read as the arguments. -/
theorem reads_args : (args : List TypeRef) → arePlain args = true →
    ∀ {ts rest : List Token}, Spells (argShapes args) ts rest → Reads (typeArgs ts) args rest
  | [], _, ts, rest, hts => by
      obtain ⟨close, ts, rfl, hclose, -, hts⟩ := Spells.cons_iff.mp hts
      obtain rfl := Spells.nil_iff.mp hts
      refine ⟨length_lt_cons close ts, ?_⟩
      rw [typeArgs, if_pos hclose]
      rfl
  | [arg], h, ts, rest, hts => by
      simp only [arePlain, Bool.and_true] at h
      obtain ⟨middle, harg, hend⟩ := Spells.append_iff.mp hts
      obtain ⟨close, middle, rfl, hclose, -, hnil⟩ := Spells.cons_iff.mp hend
      obtain rfl := Spells.nil_iff.mp hnil
      have hends : EndsType arg (close :: middle) := endsType_of_mark hclose (by decide)
      have hword := startsWithWord_of_type arg h harg
      obtain ⟨base, left, hread, hsuffixes⟩ := reads_operand arg h harg hends.toEndsOperand
      exact (hread.typeExpr_of_primary (hsuffixes ts) hword hends).typeArgs_last hword hclose
  | arg :: second :: args, h, ts, rest, hts => by
      rw [arePlain, Bool.and_eq_true] at h
      change Spells (typeShapes arg ++ markShape .comma :: argShapes (second :: args)) ts rest
        at hts
      obtain ⟨middle, harg, hmore⟩ := Spells.append_iff.mp hts
      obtain ⟨separator, middle, rfl, hseparator, -, hargs⟩ := Spells.cons_iff.mp hmore
      have hends : EndsType arg (separator :: middle) := endsType_of_mark hseparator (by decide)
      have hword := startsWithWord_of_type arg h.1 harg
      obtain ⟨base, left, hread, hsuffixes⟩ := reads_operand arg h.1 harg hends.toEndsOperand
      exact (hread.typeExpr_of_primary (hsuffixes ts) hword hends).typeArgs_cons hword hseparator
        (reads_args (second :: args) h.2 hargs)
termination_by structural args => args

end

/-- The tokens of a type are read as the type. -/
theorem reads_typeExpr {type : TypeRef} (h : isPlain type = true) {ts rest : List Token}
    (hts : Spells (typeShapes type) ts rest) (hrest : EndsType type rest) :
    Reads (typeExpr ts) type rest := by
  obtain ⟨base, middle, hread, hsuffixes⟩ := reads_operand type h hts hrest.toEndsOperand
  exact hread.typeExpr_of_primary (hsuffixes ts) (startsWithWord_of_type type h hts) hrest

end Specimen.Source
