import Mathlib
import Specimen.Proofs.Source.ContinuedBody
import Specimen.Proofs.Source.EndGap

/-!
# Declarations that are cut short

A body is read up to its brace, so whatever is passed over inside of it has come to its end. The
type of an alias and the body of a namespace are passed over without asking whether their brackets
are closed, so these two kinds of declaration are also accepted where the document ends inside a
group. Everywhere brackets are only counted: one kind may close another.

`ReadAs` keeps, for every declaration of a document, the tokens that it is read from. Main
statement: `declarationsOfText_closed`.
-/

namespace Specimen.Source

/-! ## Passing over tokens -/

theorem closing_dropOptional {kind : TokenKind} (hkind : kind.isOpening = false) (ts : List Token) :
    Closing ts (dropOptional kind ts) := by
  cases ts with
  | nil => exact .refl _
  | cons token rest =>
      by_cases hsame : token.kind = kind
      · rw [dropOptional, if_pos hsame]
        exact .cons (hsame ▸ hkind)
      · rw [dropOptional, if_neg hsame]
        exact .refl _

theorem closing_skipMember {ts : List Token} (h : Settled ts (skipMember ts)) :
    Closing ts (skipMember ts) := by
  fun_induction skipMember ts with
  | case1 => exact .refl _
  | case2 token rest hseparator =>
      exact .cons (by rcases hseparator with hkind | hkind <;> simp [hkind, TokenKind.isOpening])
  | case3 => exact .refl _
  | case4 token rest _ _ _ ih =>
      have hgroup := closing_skipTree (endsGroup_of_settled h (length_skipMember_le _))
      exact hgroup.trans (ih (h.of_closing hgroup))

theorem closing_skipInitializer {ts : List Token} (h : Settled ts (skipInitializer ts)) :
    Closing ts (skipInitializer ts) := by
  fun_induction skipInitializer ts with
  | case1 => exact .refl _
  | case2 => exact .refl _
  | case3 token rest _ _ ih =>
      have hgroup := closing_skipTree (endsGroup_of_settled h (length_skipInitializer_le _))
      exact hgroup.trans (ih (h.of_closing hgroup))

/-! ## Members of interfaces

What is left of a member is not nothing, because the brace of the interface comes later. -/

section Members

variable {tail : List Char} {ts : List Token}

theorem closing_endProperty {rest : Remaining ts} (h : endProperty tail ts = .ok rest) :
    Closing ts rest.val := by
  cases ts with
  | nil =>
      rw [List.eq_nil_of_length_eq_zero (Nat.le_zero.mp rest.property)]
      exact .refl _
  | cons token after =>
      rw [endProperty] at h
      split at h
      · rename_i hseparator
        cases h
        exact .cons (by rcases hseparator with hkind | hkind <;> simp [hkind, TokenKind.isOpening])
      split at h
      · cases h
        exact .refl _
      · cases h

theorem closing_propertyType {result : TypeRef × Remaining ts} (h : propertyType ts = .ok result)
    (hleft : result.2.val ≠ []) : Closing ts result.2.val := by
  cases ts with
  | nil =>
      cases h
      exact .refl _
  | cons token after =>
      rw [propertyType] at h
      split at h
      · rename_i hcolon
        obtain ⟨type, htype, h⟩ := exists_of_bind h
        cases h
        have hfirst : Closing (token :: after) after :=
          .cons (by simp [hcolon, TokenKind.isOpening])
        exact hfirst.trans (phrase_typeExpr htype (.inl hleft)).closing
      · cases h
        exact .refl _

theorem closing_property {name : List Char} {result : Option Field × Remaining ts}
    (h : property tail name ts = .ok result) (hleft : result.2.val ≠ []) :
    Closing ts result.2.val := by
  have hoptional : Closing ts (dropOptional (.mark .question) ts) := closing_dropOptional rfl ts
  rw [property] at h
  dsimp only at h
  split at h
  · cases h
    exact hoptional.trans (closing_skipMember (.inl hleft))
  · obtain ⟨type, htype, h⟩ := exists_of_bind h
    obtain ⟨rest, hrest, h⟩ := exists_of_bind h
    cases h
    have htypeLeft := ne_nil_of_length_le rest.property hleft
    exact hoptional.trans ((closing_propertyType htype htypeLeft).trans (closing_endProperty hrest))

theorem closing_dropReadonly (ts : List Token) : Closing ts (dropReadonly ts) := by
  cases ts with
  | nil => exact .refl _
  | cons token rest =>
      simp only [dropReadonly]
      split
      · rename_i hreadonly
        exact .cons (by simp [hreadonly.1, TokenKind.isOpening])
      · exact .refl _

theorem closing_plainMember {read : Taken ts (Option Field)} (h : plainMember tail ts = .ok read)
    (hleft : read.rest ≠ []) : Closing ts read.rest := by
  cases ts with
  | nil => cases h
  | cons token rest =>
      have hnamed {name : List Char} (hkind : token.kind.isOpening = false)
          (h : plainMember.named tail name = .ok read) : Closing (token :: rest) read.rest := by
        rw [plainMember.named] at h
        obtain ⟨field, hfield, h⟩ := exists_of_bind h
        cases h
        have hfirst : Closing (token :: rest) rest := .cons hkind
        exact hfirst.trans (closing_property hfield hleft)
      rw [plainMember] at h
      split at h
      case h_1 hkind | h_2 hkind => exact hnamed (by simp [hkind, TokenKind.isOpening]) h
      case h_3 hkind | h_4 hkind | h_5 hkind =>
        cases h
        have hgroup := closing_skipTree
          (endsGroup_of_ne_nil (ne_nil_of_length_le (length_skipMember_le _) hleft))
        exact hgroup.trans (closing_skipMember (.inl hleft))
      case h_6 hkind | h_7 hkind =>
        cases h
        exact .cons (by simp [hkind, TokenKind.isOpening])
      case h_8 =>
        split at h
        · rename_i hword
          have hopening : token.kind.isOpening = false := by
            cases hkind : token.kind <;> simp_all [TokenKind.isWord, TokenKind.isOpening]
          exact hnamed hopening h
        · cases h

theorem closing_member {read : Taken ts (Option Field)} (h : member tail ts = .ok read)
    (hleft : read.rest ≠ []) : Closing ts read.rest := by
  obtain ⟨plain, hplain, rfl⟩ := exists_of_map h
  exact (closing_dropReadonly ts).trans (closing_plainMember hplain hleft)

end Members

/-- The members of an interface are closed, and its brace follows them. -/
theorem exists_closing_interfaceBody {tail : List Char} {name : String} {ts : List Token}
    {read : Taken ts (List Field)} (h : interfaceBody tail name ts = .ok read) :
    ∃ close, close.kind = .mark .closeBrace ∧ Closing ts (close :: read.rest) := by
  cases ts with
  | nil =>
      rw [interfaceBody] at h
      cases h
  | cons token rest =>
      rw [interfaceBody] at h
      split at h
      · rename_i hclose
        cases h
        exact ⟨token, hclose, .refl _⟩
      · obtain ⟨first, hfirst, h⟩ := exists_of_bind h
        have := first.shorter
        obtain ⟨more, hmore, h⟩ := exists_of_bind h
        cases h
        obtain ⟨close, hclose, hrest⟩ := exists_closing_interfaceBody hmore
        exact ⟨close, hclose, (closing_member hfirst more.ne_nil).trans hrest⟩
termination_by ts.length
decreasing_by subst_vars; assumption

/-! ## Members of enumerations -/

section Enumerations

variable {ts : List Token}

theorem closing_computedInitializer {result : EnumLiteral × Remaining ts}
    (h : computedInitializer ts = .ok result) : Closing ts result.2.val := by
  rw [computedInitializer] at h
  split at h
  · cases h
  · rename_i hleft
    cases h
    exact closing_skipInitializer (.inl fun hnil => hleft (List.isEmpty_iff.mpr hnil))

theorem closing_initializer {result : EnumLiteral × Remaining ts}
    (h : initializer ts = .ok result) : Closing ts result.2.val := by
  cases ts with
  | nil => exact closing_computedInitializer h
  | cons token rest =>
      simp only [initializer] at h
      split at h
      · rename_i hstring
        cases h
        exact .cons (by simp [hstring.1, TokenKind.isOpening])
      split at h
      · rename_i hnumber
        obtain ⟨value, -, h⟩ := exists_of_bind h
        cases h
        exact .cons (by simp [hnumber.1, TokenKind.isOpening])
      split at h
      · rename_i hminus
        cases rest with
        | nil => exact closing_computedInitializer h
        | cons literal after =>
            dsimp only at h
            split at h
            · rename_i hnumber
              obtain ⟨value, -, h⟩ := exists_of_bind h
              cases h
              have hfirst : Closing (token :: literal :: after) (literal :: after) :=
                .cons (by simp [hminus, TokenKind.isOpening])
              exact hfirst.trans (.cons (by simp [hnumber.1, TokenKind.isOpening]))
            · exact closing_computedInitializer h
      · exact closing_computedInitializer h

theorem closing_enumMemberName {enumeration : String} {read : Taken ts String}
    (h : enumMemberName enumeration ts = .ok read) : Closing ts read.rest := by
  cases ts with
  | nil => cases h
  | cons token rest =>
      rw [enumMemberName] at h
      split at h
      · rename_i hword
        cases h
        exact (phrase_word hword).closing
      split at h
      · rename_i hstring
        cases h
        exact .cons (by simp [hstring, TokenKind.isOpening])
      · cases h

theorem closing_enumMember {enumeration : String} {read : Taken ts EnumMember}
    (h : enumMember enumeration ts = .ok read) : Closing ts read.rest := by
  rw [enumMember] at h
  obtain ⟨⟨name, left, hshort⟩, hname, h⟩ := exists_of_bind h
  have hname := closing_enumMemberName hname
  cases left with
  | nil =>
      cases h
      exact hname
  | cons token rest =>
      dsimp only at h hname
      split at h
      · rename_i hequals
        obtain ⟨value, hvalue, h⟩ := exists_of_bind h
        cases h
        have hfirst : Closing (token :: rest) rest := .cons (by simp [hequals, TokenKind.isOpening])
        exact hname.trans (hfirst.trans (closing_initializer hvalue))
      · cases h
        exact hname

end Enumerations

/-- The members of an enumeration are closed, and its brace follows them. -/
theorem exists_closing_enumBody {enumeration : String} {ts : List Token}
    {read : Taken ts (List EnumMember)} (h : enumBody enumeration ts = .ok read) :
    ∃ close, close.kind = .mark .closeBrace ∧ Closing ts (close :: read.rest) := by
  cases ts with
  | nil =>
      rw [enumBody] at h
      cases h
  | cons token rest =>
      rw [enumBody] at h
      split at h
      · rename_i hclose
        cases h
        exact ⟨token, hclose, .refl _⟩
      obtain ⟨⟨first, left, hshort⟩, hfirst, h⟩ := exists_of_bind h
      have hfirst := closing_enumMember hfirst
      cases left with
      | nil => cases h
      | cons separator after =>
          have hafter := Nat.lt_trans (length_lt_cons separator after) hshort
          dsimp only at h hfirst
          split at h
          · rename_i hcomma
            obtain ⟨more, hmore, h⟩ := exists_of_bind h
            cases h
            obtain ⟨close, hclose, hrest⟩ := exists_closing_enumBody hmore
            have hseparator : Closing (separator :: after) after :=
              .cons (by simp [hcomma, TokenKind.isOpening])
            exact ⟨close, hclose, hfirst.trans (hseparator.trans hrest)⟩
          split at h
          · rename_i hclose
            cases h
            exact ⟨separator, hclose, hfirst⟩
          · cases h
termination_by ts.length
decreasing_by subst_vars; assumption

/-! ## Declarations -/

theorem closing_heritage {ts : List Token} {read : Taken ts Unit} (h : heritage ts = .ok read)
    (hleft : read.rest ≠ []) : Closing ts read.rest := by
  rw [heritage] at h
  obtain ⟨⟨type, left, hshort⟩, hfirst, h⟩ := exists_of_bind h
  cases left with
  | nil =>
      cases h
      exact absurd rfl hleft
  | cons token rest =>
      have hlater := Nat.lt_trans (length_lt_cons token rest) hshort
      have hfirst := (phrase_typeExpr hfirst (.inl (List.cons_ne_nil token rest))).closing
      dsimp only at h
      split at h
      · rename_i hcomma
        obtain ⟨more, hmore, h⟩ := exists_of_bind h
        cases h
        have hseparator : Closing (token :: rest) rest :=
          .cons (by simp [hcomma, TokenKind.isOpening])
        exact hfirst.trans (hseparator.trans (closing_heritage hmore hleft))
      · cases h
        exact hfirst
termination_by ts.length
decreasing_by exact hlater

theorem closing_skipHeritage {ts : List Token} {rest : Remaining ts}
    (h : skipHeritage ts = .ok rest) (hleft : rest.val ≠ []) : Closing ts rest.val := by
  cases ts with
  | nil =>
      cases h
      exact .refl _
  | cons token after =>
      rw [skipHeritage] at h
      split at h
      · rename_i hextends
        obtain ⟨types, htypes, h⟩ := exists_of_bind h
        cases h
        have hfirst : Closing (token :: after) after :=
          .cons (by simp [hextends, TokenKind.isOpening])
        exact hfirst.trans (closing_heritage htypes hleft)
      · cases h
        exact .refl _

/-- A brace that is used, and a closed run up to the brace that closes it. -/
theorem closing_braces {ts rest : List Token} {brace : Taken ts Unit} {close : Token}
    (hbrace : expect (.mark .openBrace) ts = .ok brace) (hclose : close.kind = .mark .closeBrace)
    (h : Closing brace.rest (close :: rest)) : Closing ts rest := by
  obtain ⟨opening, after, rfl, hkind, hrest⟩ := eq_cons_of_expect hbrace
  exact (hrest ▸ h).group (by simp [hkind, TokenKind.isOpening])
    (by simp [hclose, TokenKind.isClosing])

theorem closing_interfaceDeclaration {tail : List Char} {ts : List Token}
    {read : Taken ts Declaration} (h : interfaceDeclaration tail ts = .ok read) :
    Closing ts read.rest := by
  obtain ⟨name, hname, h⟩ := exists_of_bind h
  obtain ⟨heritage, hheritage, h⟩ := exists_of_bind h
  obtain ⟨brace, hbrace, h⟩ := exists_of_bind h
  obtain ⟨fields, hfields, h⟩ := exists_of_bind h
  cases h
  obtain ⟨close, hclose, hbody⟩ := exists_closing_interfaceBody hfields
  have hparameters : Closing name.rest (skipTypeParameters name.rest) :=
    closing_skipTypeParameters (.inl (ne_nil_of_length_le heritage.property brace.ne_nil))
  exact (closing_expectWord hname).trans (hparameters.trans
    ((closing_skipHeritage hheritage brace.ne_nil).trans (closing_braces hbrace hclose hbody)))

theorem closing_enumDeclaration {ts : List Token} {read : Taken ts Declaration}
    (h : enumDeclaration ts = .ok read) : Closing ts read.rest := by
  obtain ⟨name, hname, h⟩ := exists_of_bind h
  obtain ⟨brace, hbrace, h⟩ := exists_of_bind h
  obtain ⟨members, hmembers, h⟩ := exists_of_bind h
  cases h
  obtain ⟨close, hclose, hbody⟩ := exists_closing_enumBody hmembers
  exact (closing_expectWord hname).trans (closing_braces hbrace hclose hbody)

/-- The tokens of a declaration are closed, or the document ends inside a group of the declaration,
which is an alias or a namespace then. -/
def Finishes (ts : List Token) (read : Declaration) (rest : List Token) : Prop :=
  Closing ts rest ∨ (rest = [] ∧ CutOff ts ∧ ((∃ target, read.body = .alias target)
    ∨ read.body = .namespace))

theorem Closing.finishes {ts middle rest : List Token} {read : Declaration}
    (h : Closing ts middle) (hrest : Finishes middle read rest) : Finishes ts read rest :=
  hrest.imp h.trans (And.imp_right (And.imp_left h.cutOff))

theorem finishes_aliasDeclaration {ts : List Token} {read : Taken ts Declaration}
    (h : aliasDeclaration ts = .ok read) : Finishes ts read.value read.rest := by
  obtain ⟨name, hname, h⟩ := exists_of_bind h
  obtain ⟨equals, hequals, h⟩ := exists_of_bind h
  obtain ⟨target, htarget, h⟩ := exists_of_bind h
  cases h
  have hhead : Closing ts (skipTypeParameters name.rest) :=
    (closing_expectWord hname).trans (closing_skipTypeParameters (.inl equals.ne_nil))
  have hbefore : Closing ts equals.rest :=
    hhead.trans (phrase_expect hequals rfl (by decide)).closing
  refine hbefore.finishes ?_
  rcases reach_typeExpr htarget with hphrase | ⟨hnil, hcut⟩
  · exact .inl (hphrase.closing.trans (closing_dropOptional rfl target.rest))
  · exact .inr ⟨congrArg (dropOptional (.mark .semicolon)) hnil, hcut, .inl ⟨target.value, rfl⟩⟩

theorem closing_namespaceName {ts : List Token} {read : Taken ts String}
    (h : namespaceName ts = .ok read) : Closing ts read.rest := by
  obtain ⟨token, rest, rfl, hkind, hrest⟩ := eq_cons_of_namespaceName h
  rw [hrest]
  exact .cons (by simp [TokenKind.isOpening, hkind])

theorem finishes_namespaceDeclaration {ts : List Token} {read : Taken ts Declaration}
    (h : namespaceDeclaration ts = .ok read) : Finishes ts read.value read.rest := by
  obtain ⟨name, hname, h⟩ := exists_of_bind h
  obtain ⟨words, hwords, h⟩ := exists_of_bind h
  cases h
  refine ((closing_namespaceName hname).trans (closing_skipDottedWords hwords)).finishes ?_
  show Finishes words.val _ (skipNamespaceBody words.val)
  unfold skipNamespaceBody
  split
  · rename_i hbrace
    obtain ⟨token, rest, hsplit, hkind⟩ := startsWith_eq_true hbrace
    rw [hsplit]
    rcases reach_skipTree (.inl hkind) with hphrase | ⟨hnil, hcut⟩
    · exact .inl hphrase.closing
    · exact .inr ⟨hnil, hcut, .inr rfl⟩
  · exact .inl (closing_dropOptional rfl words.val)

theorem finishes_declaration? {tail : List Char} {first : Token} {rest : List Token}
    {read : Taken (first :: rest) Declaration}
    (h : declaration? tail first rest = some (.ok read)) :
    Finishes (first :: rest) read.value read.rest := by
  have hword {ts : List Token} {token : Token} (hkind : token.kind.isOpening = false)
      {result : Except Fault (Taken ts Declaration)} {read : Taken (token :: ts) Declaration}
      (hfinishes : ∀ plain, result = .ok plain → Finishes ts plain.value plain.rest)
      (h : result.map (·.behind token) = .ok read) :
      Finishes (token :: ts) read.value read.rest := by
    obtain ⟨plain, hplain, rfl⟩ := exists_of_map h
    exact (Closing.cons hkind).finishes (hfinishes plain hplain)
  have hopen {keyword : Keyword} (hkind : first.kind = .keyword keyword) :
      first.kind.isOpening = false := by simp [hkind, TokenKind.isOpening]
  unfold declaration? at h
  split at h
  case h_1 hkind =>
    exact hword (hopen hkind) (fun _ hplain => .inl (closing_interfaceDeclaration hplain))
      (Option.some.inj h)
  case h_2 hkind =>
    split at h
    · exact hword (hopen hkind) (fun _ hplain => finishes_aliasDeclaration hplain)
        (Option.some.inj h)
    · cases h
  case h_3 hkind =>
    exact hword (hopen hkind) (fun _ hplain => .inl (closing_enumDeclaration hplain))
      (Option.some.inj h)
  case h_4 hkind =>
    split at h
    · rename_i second after
      split at h
      · rename_i henum
        obtain ⟨plain, hplain, rfl⟩ := exists_of_map (Option.some.inj h)
        have hsecond : Closing (first :: second :: after) after :=
          (Closing.cons (hopen hkind)).trans (.cons (by simp [henum, TokenKind.isOpening]))
        exact .inl (hsecond.trans (closing_enumDeclaration hplain))
      · cases h
    · cases h
  case h_5 hkind | h_6 hkind =>
    split at h
    · exact hword (hopen hkind) (fun _ hplain => finishes_namespaceDeclaration hplain)
        (Option.some.inj h)
    · cases h
  case h_7 => cases h

/-! ## Documents -/

/-- A declaration, the tokens that it is read from, and the tokens behind it. -/
structure Extent where
  declaration : Declaration
  tokens : List Token
  behind : List Token

/-- The declarations of a list of tokens, each with its extent. What is no declaration is passed
over between them. -/
inductive ReadAs (tail : List Char) : List Token → List Extent → Prop
  | done : ReadAs tail [] []
  | passed {first : Token} {rest : List Token} {extents : List Extent}
      (other : declaration? tail first rest = none)
      (later : ReadAs tail (skipTree (first :: rest)) extents) :
      ReadAs tail (first :: rest) extents
  | read {first : Token} {rest tokens : List Token} {extents : List Extent}
      {read : Taken (first :: rest) Declaration}
      (found : declaration? tail first rest = some (.ok read))
      (split : first :: rest = tokens ++ read.rest) (later : ReadAs tail read.rest extents) :
      ReadAs tail (first :: rest) (⟨read.value, tokens, read.rest⟩ :: extents)

/-- The brackets in the extent are all closed, or its declaration is an alias or a namespace that is
the last thing in the document, and the document ends inside a group of it. -/
def Extent.IsFinished (extent : Extent) : Prop :=
  IsClosed extent.tokens ∨ (extent.behind = [] ∧ CutOff extent.tokens
    ∧ ((∃ target, extent.declaration.body = .alias target)
      ∨ extent.declaration.body = .namespace))

theorem exists_readAs {tail : List Char} {ts : List Token} {declarations : List Declaration}
    (h : declarationsOfTokens tail ts = .ok declarations) :
    ∃ extents, ReadAs tail ts extents ∧ extents.map Extent.declaration = declarations
      ∧ ∀ extent ∈ extents, extent.IsFinished := by
  cases ts with
  | nil =>
      rw [declarationsOfTokens] at h
      cases h
      exact ⟨[], .done, rfl, by simp⟩
  | cons first rest =>
      rw [declarationsOfTokens_cons] at h
      cases hfound : declaration? tail first rest with
      | none =>
          have := length_skipTree_cons_lt first rest
          rw [hfound] at h
          obtain ⟨extents, hread, hsame, hfinished⟩ := exists_readAs h
          exact ⟨extents, .passed hfound hread, hsame, hfinished⟩
      | some result =>
          rw [hfound] at h
          obtain ⟨read, rfl, h⟩ := exists_of_bind h
          obtain ⟨later, hlater, rfl⟩ := exists_of_map h
          have := read.shorter
          obtain ⟨extents, hread, hsame, hfinished⟩ := exists_readAs hlater
          have hextent : ∃ tokens, first :: rest = tokens ++ read.rest
              ∧ Extent.IsFinished ⟨read.value, tokens, read.rest⟩ := by
            rcases finishes_declaration? hfound with ⟨front, hsplit, hclosed⟩ | ⟨hnil, hcut, hbody⟩
            · exact ⟨front, hsplit, .inl hclosed⟩
            · exact ⟨first :: rest, by rw [hnil, List.append_nil], .inr ⟨hnil, hcut, hbody⟩⟩
          obtain ⟨tokens, hsplit, hextent⟩ := hextent
          refine ⟨_ :: extents, .read hfound hsplit hread, congrArg (read.value :: ·) hsame, ?_⟩
          exact List.forall_mem_cons.mpr ⟨hextent, hfinished⟩
termination_by ts.length
decreasing_by all_goals subst_vars; assumption

/-- Where the declarations of a document are read, all brackets in them are closed, except that the
document may end inside a curly or square group of its last declaration, if that is an alias or a
namespace. Closed means as many closing brackets as opening ones, the three kinds counted together
(`IsClosed`): that the kinds match is not said, and it does not hold of what is passed over. -/
theorem declarationsOfText_closed (text : String) (declarations : List Declaration)
    (h : declarationsOfText text = .ok declarations) :
    ∃ extents, ReadAs (Tokens.ofText text.toList).tail (Tokens.ofText text.toList).tokens extents
      ∧ extents.map Extent.declaration = declarations
      ∧ ∀ extent ∈ extents, extent.IsFinished := by
  unfold declarationsOfText at h
  dsimp only at h
  split at h
  · rename_i found hfound
    cases h
    exact exists_readAs hfound
  · cases h

/-- An interface, and an enumeration with a value in brackets. -/
theorem declarationsOfText_closed_enumeration :
    let text := "interface A \x7b x: T[] \x7d enum E \x7b B = (1) \x7d"
    let declarations : List Declaration :=
      [⟨"A", .interface [⟨"x", .arrayOf (.named "T"), false⟩]⟩,
        ⟨"E", .enumeration [⟨"B", some (.string "(1)")⟩]⟩]
    declarationsOfText text = .ok declarations
      ∧ ∃ extents,
        ReadAs (Tokens.ofText text.toList).tail (Tokens.ofText text.toList).tokens extents
        ∧ extents.map Extent.declaration = declarations
        ∧ ∀ extent ∈ extents, extent.IsFinished := by
  intro text declarations
  let tokens : List Token :=
    [⟨.keyword .interface, [], ['i', 'n', 't', 'e', 'r', 'f', 'a', 'c', 'e'], 0⟩,
      ⟨.identifier, [' '], ['A'], 10⟩, ⟨.mark .openBrace, [' '], ['\x7b'], 12⟩,
      ⟨.identifier, [' '], ['x'], 14⟩, ⟨.mark .colon, [], [':'], 15⟩,
      ⟨.identifier, [' '], ['T'], 17⟩, ⟨.mark .openBracket, [], ['['], 18⟩,
      ⟨.mark .closeBracket, [], [']'], 19⟩, ⟨.mark .closeBrace, [' '], ['\x7d'], 21⟩,
      ⟨.keyword .enum, [' '], ['e', 'n', 'u', 'm'], 23⟩, ⟨.identifier, [' '], ['E'], 28⟩,
      ⟨.mark .openBrace, [' '], ['\x7b'], 30⟩, ⟨.identifier, [' '], ['B'], 32⟩,
      ⟨.mark .equals, [' '], ['='], 34⟩, ⟨.mark .openParen, [' '], ['('], 36⟩,
      ⟨.number, [], ['1'], 37⟩, ⟨.mark .closeParen, [], [')'], 38⟩,
      ⟨.mark .closeBrace, [' '], ['\x7d'], 40⟩]
  have htokens : Tokens.ofText text.toList = ⟨tokens, []⟩ := by
    dsimp only [text, tokens]
    cbv
  have hresult : declarationsOfTokens [] tokens = .ok declarations := by
    dsimp only [tokens, declarations]
    cbv
  have hread : declarationsOfText text = .ok declarations := by
    simp only [declarationsOfText, htokens, hresult]
  exact ⟨hread, declarationsOfText_closed text declarations hread⟩

/-- An alias and a namespace take in the rest of a document that ends inside their braces. An
interface in their place is rejected. -/
theorem declarationsOfText_cutOff :
    declarationsOfText "type A = \x7b x: string;"
        = .ok [⟨"A", .alias (.unsupported "\x7b x: string;")⟩]
      ∧ ¬ IsClosed (Tokens.ofText "type A = \x7b x: string;".toList).tokens
      ∧ declarationsOfText "namespace A \x7b x: string;" = .ok [⟨"A", .namespace⟩]
      ∧ ¬ IsClosed (Tokens.ofText "namespace A \x7b x: string;".toList).tokens
      ∧ declarationsOfText "interface A \x7b x: string;"
        = .error ⟨"unclosed body of interface `A`", ⟨1, 25⟩⟩ := by
  have halias :
      depthThrough 0 (Tokens.ofText "type A = \x7b x: string;".toList).tokens = 1 := by cbv
  have hnamespace :
      depthThrough 0 (Tokens.ofText "namespace A \x7b x: string;".toList).tokens = 1 := by cbv
  refine ⟨by cbv, ?_, by cbv, ?_, by cbv⟩
  · simp only [IsClosed, halias]
    decide
  · simp only [IsClosed, hnamespace]
    decide

end Specimen.Source
