import Specimen.Proofs.Source.CutShort
import Specimen.Proofs.Source.InterfaceHead

/-!
# Where the value of a member stands

The value of a member of an enumeration stands behind an equals sign. When a reader comes there,
it has read the declarations in front of the enumeration and the members in front of the member
(`MemberSite`); when the value is read, it goes on behind it with the later members. So what a
document with a value is read as depends on the value through `initializer` alone. Main statement:
`MemberSite.StandsAt.declarationsOfText_eq`.
-/

namespace Specimen.Source

/-- What is read in a document up to the value of a member. -/
structure MemberSite where
  /-- The declarations in front of the enumeration. -/
  earlier : List Declaration
  enumeration : String
  /-- The members in front of the member. -/
  members : List EnumMember
  name : String

/-- The tokens are read as the declarations, and then one comes to the enumeration behind them. -/
def LeadsToEnum (tail : List Char) (before : List Token) (earlier : List Declaration) : Prop :=
  ∀ keyword rest, keyword.kind = .keyword .enum →
    declarationsOfTokens tail (before ++ keyword :: rest)
      = (declarationsOfTokens tail (keyword :: rest)).map (earlier ++ ·)

/-- The tokens are read as the members, each with a comma behind it, and then one comes to the
rest. -/
inductive MembersRead (enumeration : String) : List Token → List EnumMember → List Token → Prop
  | nil {rest : List Token} : MembersRead enumeration rest [] rest
  | cons {ts us rest : List Token} {comma : Token} {member : EnumMember} {members : List EnumMember}
      (hmember : Reads (enumMember enumeration ts) member (comma :: us))
      (hcomma : comma.kind = .mark .comma) (hmore : MembersRead enumeration us members rest) :
      MembersRead enumeration ts (member :: members) rest

/-- Declarations and other statements in front of an enumeration and its modifiers lead to it. The
word `const` counts as another statement. -/
theorem Interspersed.leadsToEnum {before us modifiers : List Token} {earlier : List Declaration}
    (h : Interspersed before us earlier)
    (hmodifiers : ∀ word ∈ modifiers, ∃ modifier : Modifier, word.kind = .keyword modifier.keyword)
    (tail : List Char) : LeadsToEnum tail (before ++ modifiers) earlier :=
  fun keyword rest _ => h.declarationsOfTokens_append hmodifiers tail (keyword :: rest)

namespace MemberSite

/-- The tokens of a document from the value of the member on are the given ones. -/
inductive StandsAt (site : MemberSite) : (document : Tokens) → (value : List Token) → Prop
  | behind {before body value : List Token} {keyword name brace member equals : Token}
      {tail : List Char} (hbefore : LeadsToEnum tail before site.earlier)
      (hkeyword : keyword.kind = .keyword .enum) (hname : name.kind.isWord = true)
      (henumeration : String.ofList name.text = site.enumeration)
      (hbrace : brace.kind = .mark .openBrace)
      (hmembers : MembersRead site.enumeration body site.members (member :: equals :: value))
      (hmember : Reads (enumMemberName site.enumeration (member :: equals :: value)) site.name
        (equals :: value))
      (hequals : equals.kind = .mark .equals) :
      StandsAt site ⟨before ++ keyword :: name :: brace :: body, tail⟩ value

/-- The declarations of the document, if the member has the value, with the members and the
declarations behind it. -/
def declarations (site : MemberSite) (value : EnumLiteral) (later : List EnumMember)
    (others : List Declaration) : List Declaration :=
  site.earlier
    ++ ⟨site.enumeration, .enumeration (site.members ++ ⟨site.name, some value⟩ :: later)⟩ :: others

/-- The value of the first member of an enumeration with nothing in front of it. -/
theorem standsAt_first (keyword name brace member equals : Token)
    (hkeyword : keyword.kind = .keyword .enum) (hname : name.kind.isWord = true)
    (hbrace : brace.kind = .mark .openBrace) (hmember : member.kind.isWord = true)
    (hequals : equals.kind = .mark .equals) (value : List Token) (tail : List Char) :
    StandsAt ⟨[], String.ofList name.text, [], String.ofList member.text⟩
      ⟨keyword :: name :: brace :: member :: equals :: value, tail⟩ value := by
  have hbefore : LeadsToEnum tail ([] ++ []) [] := Interspersed.nil.leadsToEnum (by simp) tail
  have hread : Reads (enumMemberName (String.ofList name.text) (member :: equals :: value))
      (String.ofList member.text) (equals :: value) := by
    rw [enumMemberName, if_pos hmember]
    exact ⟨_, rfl⟩
  have hstands : StandsAt ⟨[], String.ofList name.text, [], String.ofList member.text⟩
      ⟨[] ++ [] ++ keyword :: name :: brace :: member :: equals :: value, tail⟩ value :=
    .behind hbefore hkeyword hname rfl hbrace .nil hread hequals
  exact hstands

end MemberSite

/-- The members behind a value that ends in front of the tokens, and what follows the
enumeration. -/
def laterMembers (enumeration : String) :
    List Token → Except Fault (List EnumMember × List Token)
  | [] => refuse .memberSeparator []
  | separator :: rest =>
      if separator.kind = .mark .comma then outcome (enumBody enumeration rest)
      else if separator.kind = .mark .closeBrace then .ok ([], rest)
      else refuse .memberSeparator (separator :: rest)

/-- The declarations of a document in which the value of the member ends in front of the tokens. -/
def MemberSite.goOn (site : MemberSite) (tail : List Char) (value : EnumLiteral)
    (rest : List Token) : Except Fault (List Declaration) := do
  let later ← laterMembers site.enumeration rest
  let others ← declarationsOfTokens tail later.2
  return site.declarations value later.1 others

/-- Nothing comes behind a value in front of the last closing brace. -/
theorem MemberSite.goOn_closeBrace {brace : Token} (hbrace : brace.kind = .mark .closeBrace)
    (site : MemberSite) (tail : List Char) (value : EnumLiteral) :
    site.goOn tail value [brace] = .ok (site.declarations value [] []) := by
  have hlater : laterMembers site.enumeration [brace] = .ok ([], []) := by
    rw [laterMembers, if_neg (by simp [hbrace]), if_pos hbrace]
  have hothers : declarationsOfTokens tail [] = .ok [] := by rw [declarationsOfTokens]
  rw [goOn, hlater]
  dsimp only [bind, Except.bind]
  rw [hothers]
  rfl

/-! ## Reading a value -/

section Values

variable {literal minus token : Token} {rest : List Token}

/-- A number in front of the end of its member is the value. -/
theorem initializer_number (hkind : literal.kind = .number) (hend : atMemberEnd rest = true) :
    initializer (literal :: rest)
      = (numberLiteral literal.text rest).map fun value =>
          (.number value, .tail literal rest) := by
  rw [initializer.eq_def]
  dsimp only
  rw [if_neg (by simp [hkind]), if_pos ⟨hkind, hend⟩]
  cases numberLiteral literal.text rest <;> rfl

/-- A number behind a minus is the value with the other sign. -/
theorem initializer_negative (hminus : minus.kind = .mark .minus) (hkind : literal.kind = .number)
    (hend : atMemberEnd rest = true) :
    initializer (minus :: literal :: rest)
      = (numberLiteral literal.text rest).map fun value =>
          (.number (-value),
            (Remaining.tail minus (literal :: rest)).andThen (.tail literal rest)) := by
  rw [initializer.eq_def]
  dsimp only
  rw [if_neg (by simp [hminus]), if_neg (by simp [hminus]), if_pos hminus, if_pos ⟨hkind, hend⟩]
  cases numberLiteral literal.text rest <;> rfl

/-- Anything else is computed. -/
theorem initializer_computed
    (hliteral : atMemberEnd rest = true → token.kind ≠ .string ∧ token.kind ≠ .number)
    (hnegative : ∀ literal after, rest = literal :: after → atMemberEnd after = true →
      ¬(token.kind = .mark .minus ∧ literal.kind = .number)) :
    initializer (token :: rest) = computedInitializer (token :: rest) := by
  rw [initializer.eq_def]
  dsimp only
  rw [if_neg fun h => (hliteral h.2).1 h.1, if_neg fun h => (hliteral h.2).2 h.1]
  split
  · rename_i hminus
    cases rest with
    | nil => rfl
    | cons literal after =>
        exact if_neg fun h => hnegative literal after rfl h.2 ⟨hminus, h.1⟩
  · rfl

end Values

/-! ## Reading an enumeration -/

section Enumeration

variable {enumeration : String} {tail : List Char}

theorem not_closeBrace_of_reads {ts rest : List Token} {member : EnumMember}
    (h : Reads (enumMember enumeration ts) member rest) :
    ∃ token us, ts = token :: us ∧ token.kind ≠ .mark .closeBrace := by
  obtain ⟨hshort, h⟩ := h
  obtain ⟨name, hname, -⟩ := exists_of_bind h
  cases ts with
  | nil => cases hname
  | cons token us =>
      refine ⟨token, us, rfl, fun hkind => ?_⟩
      simp [enumMemberName, hkind, TokenKind.isWord, refuse] at hname

/-- After a member the reader goes on with the later ones. -/
theorem enumBody_of_member {ts rest : List Token} {member : EnumMember}
    (h : Reads (enumMember enumeration ts) member rest) :
    outcome (enumBody enumeration ts)
      = (laterMembers enumeration rest).map fun later => (member :: later.1, later.2) := by
  obtain ⟨token, us, rfl, hbrace⟩ := not_closeBrace_of_reads h
  obtain ⟨hshort, h⟩ := h
  rw [enumBody, if_neg hbrace, h]
  dsimp only [bind, Except.bind]
  cases rest with
  | nil => rfl
  | cons separator rest =>
      simp only [laterMembers]
      split
      · cases enumBody enumeration rest <;> rfl
      · split <;> rfl

theorem MembersRead.enumBody_eq {ts rest : List Token} {members : List EnumMember}
    (h : MembersRead enumeration ts members rest) :
    outcome (enumBody enumeration ts)
      = (outcome (enumBody enumeration rest)).map fun later => (members ++ later.1, later.2) := by
  induction h with
  | nil => cases outcome (enumBody enumeration _) <;> rfl
  | cons hmember hcomma _ ih =>
      rw [enumBody_of_member hmember, laterMembers, if_pos hcomma, ih]
      cases outcome (enumBody enumeration _) <;> rfl

theorem MembersRead.suffix {ts rest : List Token} {members : List EnumMember}
    (h : MembersRead enumeration ts members rest) : rest <:+ ts := by
  induction h with
  | nil => exact List.suffix_rfl
  | cons hmember _ _ ih =>
      obtain ⟨hshort, hmember⟩ := hmember
      exact (ih.trans (List.suffix_cons _ _)).trans (closing_enumMember hmember).suffix

/-- A member with a value: the value is read, and then what is behind it. -/
theorem enumBody_of_value {ts value : List Token} {equals : Token} {name : String}
    (hmember : Reads (enumMemberName enumeration ts) name (equals :: value))
    (hequals : equals.kind = .mark .equals) :
    outcome (enumBody enumeration ts)
      = initializer value >>= fun read =>
          (laterMembers enumeration read.2.val).map fun later =>
            (⟨name, some read.1⟩ :: later.1, later.2) := by
  obtain ⟨hshort, hname⟩ := hmember
  have hread : enumMember enumeration ts = initializer value >>= fun read =>
      .ok (.ofRemaining ⟨name, some read.1⟩ read.2
        (Nat.lt_trans (length_lt_cons equals value) hshort)) := by
    rw [enumMember, hname]
    dsimp only [bind, Except.bind]
    rw [if_pos hequals]
    rfl
  cases hvalue : initializer value with
  | ok read =>
      rw [hvalue] at hread
      exact enumBody_of_member ⟨_, hread⟩
  | error fault =>
      rw [hvalue] at hread
      cases ts with
      | nil => cases hname
      | cons token us =>
          have hbrace : token.kind ≠ .mark .closeBrace := by
            intro hkind
            simp [enumMemberName, hkind, TokenKind.isWord, refuse] at hname
          rw [enumBody, if_neg hbrace, hread]
          rfl

end Enumeration

/-! ## Reading the document -/

theorem declarationsOfTokens_enum {tail : List Char} {keyword name brace : Token}
    (hkeyword : keyword.kind = .keyword .enum) (hname : name.kind.isWord = true)
    (hbrace : brace.kind = .mark .openBrace) (body : List Token) :
    declarationsOfTokens tail (keyword :: name :: brace :: body)
      = outcome (enumBody (String.ofList name.text) body) >>= fun read =>
          (declarationsOfTokens tail read.2).map
            (⟨String.ofList name.text, .enumeration read.1⟩ :: ·) := by
  have hread : declaration? tail keyword (name :: brace :: body)
      = some ((enumDeclaration (name :: brace :: body)).map (·.behind keyword)) := by
    unfold declaration?
    rw [hkeyword]
  rw [declarationsOfTokens_cons, hread, enumDeclaration, expectWord, if_pos hname]
  dsimp only [bind, Except.bind, Taken.one]
  rw [expect, if_pos hbrace]
  dsimp only [Taken.one]
  cases enumBody (String.ofList name.text) body <;> rfl

namespace MemberSite

variable {site : MemberSite} {document : Tokens} {value : List Token}

theorem StandsAt.suffix (h : site.StandsAt document value) : value <:+ document.tokens := by
  obtain ⟨-, -, -, -, -, hmembers, -, -⟩ := h
  have hbody := ((List.suffix_cons _ value).trans (List.suffix_cons _ _)).trans hmembers.suffix
  have hhead : ∀ (keyword name brace : Token) (body : List Token),
      body <:+ keyword :: name :: brace :: body :=
    fun keyword name brace body => List.suffix_append [keyword, name, brace] body
  exact (hbody.trans (hhead _ _ _ _)).trans (List.suffix_append _ _)

theorem StandsAt.declarationsOfTokens_eq (h : site.StandsAt document value) :
    declarationsOfTokens document.tail document.tokens
      = initializer value >>= fun read => site.goOn document.tail read.1 read.2.val := by
  obtain ⟨hbefore, hkeyword, hname, henumeration, hbrace, hmembers, hmember, hequals⟩ := h
  rw [hbefore _ _ hkeyword, declarationsOfTokens_enum hkeyword hname hbrace, henumeration,
    hmembers.enumBody_eq, enumBody_of_value hmember hequals]
  cases initializer value with
  | error fault => rfl
  | ok read =>
      dsimp only [goOn, bind, Except.bind]
      cases laterMembers site.enumeration read.2.val with
      | error fault => rfl
      | ok later =>
          dsimp only [Except.map]
          cases declarationsOfTokens _ later.2 <;> rfl

/-- A document is read as its value is, and then on behind the value. -/
theorem StandsAt.declarationsOfText_eq {text : String}
    (h : site.StandsAt (Tokens.ofText text.toList) value) :
    declarationsOfText text
      = (initializer value >>= fun read =>
          site.goOn (Tokens.ofText text.toList).tail read.1 read.2.val).mapError
            (·.report text.toList) := by
  rw [← h.declarationsOfTokens_eq, declarationsOfText]
  cases declarationsOfTokens _ _ <;> rfl

end MemberSite

end Specimen.Source
