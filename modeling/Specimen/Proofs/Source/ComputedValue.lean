import Specimen.Proofs.Source.MemberSite
import Specimen.Proofs.Source.Tiling

/-!
# Computed values

A member of an enumeration may have a value that is no literal but an expression. Its tokens are
passed over, groups in brackets as a whole, up to the comma or the brace that ends the member, and
its text is kept as it stands in the document. Main statement: `declarationsOfText_of_isComputed`.
An expression without tokens is no fault but the empty text (`declarationsOfText_without_value`).
-/

namespace Specimen.Source

/-- The tokens of an expression: brackets are balanced, commas stand inside of them only, and the
tokens are not those of a literal. -/
structure IsComputed (value : List Token) : Prop where
  ne_nil : value ≠ []
  balanced : IsBalanced (fun kind => kind != .mark .comma) value
  not_literal : ∀ token, value = [token] → token.kind ≠ .string ∧ token.kind ≠ .number
  not_negative : ∀ minus number, value = [minus, number] →
    ¬(minus.kind = .mark .minus ∧ number.kind = .number)

/-- The token ends a member. -/
def EndsMember (token : Token) : Prop :=
  token.kind = .mark .comma ∨ token.kind = .mark .closeBrace

theorem atMemberEnd_cons_iff {token : Token} {rest : List Token} :
    atMemberEnd (token :: rest) = true ↔ EndsMember token := by
  simp [atMemberEnd, startsWith, EndsMember]

section Expressions

variable {value rest : List Token} {separator : Token}

/-- No member ends where an expression begins. -/
theorem atMemberEnd_append {token : Token}
    (h : IsBalanced (fun kind => kind != .mark .comma) (token :: value)) :
    atMemberEnd (token :: value ++ rest) = false := by
  obtain ⟨hclosing, hcomma⟩ := h.allowed_head
  rw [Bool.eq_false_iff, List.cons_append, ne_eq, atMemberEnd_cons_iff]
  rintro (hkind | hkind)
  · simp [hkind] at hcomma
  · simp [hkind, TokenKind.isClosing] at hclosing

/-- An expression is passed over up to the end of its member. -/
theorem skipInitializer_append {value rest : List Token} {separator : Token}
    (h : IsBalanced (fun kind => kind != .mark .comma) value) (hseparator : EndsMember separator) :
    skipInitializer (value ++ separator :: rest) = separator :: rest := by
  cases value with
  | nil => rw [List.nil_append, skipInitializer, if_pos (atMemberEnd_cons_iff.mpr hseparator)]
  | cons token more =>
      obtain ⟨later, hskip, hlater, hshort⟩ := h.exists_skipTree (separator :: rest)
      have hnot : atMemberEnd (token :: more ++ separator :: rest) = false := atMemberEnd_append h
      rw [List.cons_append] at hnot hskip ⊢
      rw [skipInitializer, if_neg (Bool.eq_false_iff.mp hnot), hskip]
      exact skipInitializer_append hlater hseparator
termination_by value.length

/-- Behind a token that opens no group an expression goes on. -/
theorem IsBalanced.of_cons {allowed : TokenKind → Bool} {token : Token}
    (h : IsBalanced allowed (token :: value)) (hopening : token.kind.isOpening = false) :
    IsBalanced allowed value := by
  have hrest := (Bool.and_eq_true_iff.mp h).2
  rwa [TokenKind.depthAfter_zero hopening] at hrest

/-- A literal that is followed by the end of the member is the whole expression. -/
theorem eq_nil_of_atMemberEnd (h : IsBalanced (fun kind => kind != .mark .comma) value)
    (hend : atMemberEnd (value ++ rest) = true) : value = [] := by
  cases value with
  | nil => rfl
  | cons token value =>
      rw [atMemberEnd_append h] at hend
      cases hend

theorem leaves_computedInitializer (h : IsBalanced (fun kind => kind != .mark .comma) value)
    (hseparator : EndsMember separator) :
    Leaves (computedInitializer (value ++ separator :: rest)) (.string (runText value))
      (separator :: rest) := by
  have hskip : skipInitializer (value ++ separator :: rest) = separator :: rest :=
    skipInitializer_append h hseparator
  have htext : spanText (value ++ separator :: rest) (separator :: rest) = runText value := by
    rw [spanText_eq_runText, List.length_append, Nat.add_sub_cancel, List.take_left']
    rfl
  have hle := length_skipInitializer_le (value ++ separator :: rest)
  rw [hskip] at hle
  refine ⟨hle, ?_⟩
  simp only [computedInitializer, Remaining.skipping, Remaining.andThen, Remaining.all,
    hskip, htext]
  rfl

/-- The value is the text of the expression, and the reader comes to the end of the member. -/
theorem IsComputed.leaves_initializer (h : IsComputed value) (hseparator : EndsMember separator) :
    Leaves (initializer (value ++ separator :: rest)) (.string (runText value))
      (separator :: rest) := by
  have hcomputed :
      Leaves (computedInitializer (value ++ separator :: rest)) (.string (runText value))
      (separator :: rest) := leaves_computedInitializer h.balanced hseparator
  cases value with
  | nil => exact absurd rfl h.ne_nil
  | cons token value =>
      -- a token that is a literal by itself is not the last one
      have hlast (hkind : token.kind.isOpening = false)
          (hend : atMemberEnd (value ++ separator :: rest) = true) : value = [] :=
        eq_nil_of_atMemberEnd (h.balanced.of_cons hkind) hend
      rw [List.cons_append] at hcomputed ⊢
      rw [initializer_computed]
      · exact hcomputed
      · intro hend
        constructor
        · intro hkind
          obtain rfl := hlast (by simp [hkind, TokenKind.isOpening]) hend
          exact (h.not_literal token rfl).1 hkind
        · intro hkind
          obtain rfl := hlast (by simp [hkind, TokenKind.isOpening]) hend
          exact (h.not_literal token rfl).2 hkind
      · rintro literal after hsplit hend ⟨hminus, hkind⟩
        cases value with
        | nil =>
            cases hsplit
            rcases hseparator with hcomma | hbrace <;> simp_all
        | cons number value =>
            cases hsplit
            have hmore := h.balanced.of_cons (by simp [hminus, TokenKind.isOpening])
            have hrest := hmore.of_cons (by simp [hkind, TokenKind.isOpening])
            obtain rfl := eq_nil_of_atMemberEnd hrest hend
            exact h.not_negative token literal rfl ⟨hminus, hkind⟩

end Expressions

/-- The text of a run of tokens is what stands in the document from the start of the first to the
end of the last, without white space at the ends. -/
theorem exists_slice?_runText {text : List Char} {before after run : List Token}
    (htokens : (Tokens.ofText text).tokens = before ++ (run ++ after)) (hne : run ≠ []) :
    ∃ first last source, run.head? = some first ∧ run.getLast? = some last
      ∧ slice? first.start last.stop text = some source
      ∧ runText run = String.ofList (trim source) := by
  have hplaced : Placed 0 (Tokens.ofText text).tokens := (munched_scan 0 [] text).placed rfl
  cases run with
  | nil => exact absurd rfl hne
  | cons first others =>
      obtain ⟨-, hstart, hwhole⟩ := hplaced.cut (text_ofText text) htokens
      obtain ⟨last, hlast⟩ : ∃ last, (first :: others).getLast? = some last :=
        ⟨_, List.getLast?_eq_some_getLast hne⟩
      have hrun : Placed 0 (before ++ first :: others) := by
        rw [htokens, ← List.append_assoc] at hplaced
        exact hplaced.before
      have hstop : last.stop = byteSize (before.flatMap Token.spelled ++ first.gap)
          + byteSize (first.text ++ others.flatMap Token.spelled) := by
        have hend := hrun.stopOf_eq
        rw [stopOf, List.getLast?_append, hlast] at hend
        simpa [Token.spelled, byteSize_append, Nat.add_assoc] using hend
      refine ⟨first, last, first.text ++ others.flatMap Token.spelled, rfl, hlast, ?_, rfl⟩
      have hcut : text = (before.flatMap Token.spelled ++ first.gap)
          ++ ((first.text ++ others.flatMap Token.spelled)
            ++ Tokens.text ⟨after, (Tokens.ofText text).tail⟩) := by
        refine hwhole.trans ?_
        simp only [Tokens.text, List.append_eq, List.flatMap_append, List.append_assoc]
        rfl
      have hslice := slice?_append (before.flatMap Token.spelled ++ first.gap)
        (first.text ++ others.flatMap Token.spelled)
        (Tokens.text ⟨after, (Tokens.ofText text).tail⟩)
      rw [hstart, ← byteSize_append, hstop]
      rwa [← hcut] at hslice

/-- A member with a computed value keeps the text of the expression, from the start of its first
token to the end of its last one. Reading goes on with the comma or the brace behind the
expression, so the document is read if the members and declarations behind it are. -/
theorem declarationsOfText_of_isComputed {text : String} {site : MemberSite}
    {value rest : List Token} {separator : Token}
    (hsite : site.StandsAt (Tokens.ofText text.toList) (value ++ separator :: rest))
    (hvalue : IsComputed value) (hseparator : EndsMember separator) :
    ∃ first last source, value.head? = some first ∧ value.getLast? = some last
      ∧ slice? first.start last.stop text.toList = some source
      ∧ declarationsOfText text
        = (site.goOn (Tokens.ofText text.toList).tail (.string (String.ofList (trim source)))
            (separator :: rest)).mapError (·.report text.toList) := by
  obtain ⟨before, htokens⟩ := hsite.suffix
  obtain ⟨first, last, source, hfirst, hlast, hslice, hrun⟩ :=
    exists_slice?_runText htokens.symm hvalue.ne_nil
  obtain ⟨hle, hread⟩ : Leaves (initializer (value ++ separator :: rest)) (.string (runText value))
      (separator :: rest) := hvalue.leaves_initializer hseparator
  refine ⟨first, last, source, hfirst, hlast, hslice, ?_⟩
  rw [hsite.declarationsOfText_eq, hread, hrun]
  rfl

set_option maxRecDepth 1024 in
/-- An expression with a comma in brackets, in front of a further member. -/
theorem declarationsOfText_of_isComputed_call :
    let text := "const enum E \x7b X, A = f(1, 2) | 3, B \x7d"
    let site : MemberSite := ⟨[], "E", [⟨"X", none⟩], "A"⟩
    ∃ value separator rest,
      site.StandsAt (Tokens.ofText text.toList) (value ++ separator :: rest)
      ∧ IsComputed value ∧ EndsMember separator
      ∧ declarationsOfText text = .ok [⟨"E", .enumeration
          [⟨"X", none⟩, ⟨"A", some (.string "f(1, 2) | 3")⟩, ⟨"B", none⟩]⟩] := by
  intro text site
  let before : List Token := [⟨.keyword .const, [], ['c', 'o', 'n', 's', 't'], 0⟩]
  let keyword : Token := ⟨.keyword .enum, [' '], ['e', 'n', 'u', 'm'], 6⟩
  let name : Token := ⟨.identifier, [' '], ['E'], 11⟩
  let brace : Token := ⟨.mark .openBrace, [' '], ['\x7b'], 13⟩
  let sibling : Token := ⟨.identifier, [' '], ['X'], 15⟩
  let comma : Token := ⟨.mark .comma, [], [','], 16⟩
  let member : Token := ⟨.identifier, [' '], ['A'], 18⟩
  let equals : Token := ⟨.mark .equals, [' '], ['='], 20⟩
  let value : List Token :=
    [⟨.identifier, [' '], ['f'], 22⟩, ⟨.mark .openParen, [], ['('], 23⟩, ⟨.number, [], ['1'], 24⟩,
      ⟨.mark .comma, [], [','], 25⟩, ⟨.number, [' '], ['2'], 27⟩,
      ⟨.mark .closeParen, [], [')'], 28⟩,
      ⟨.mark .pipe, [' '], ['|'], 30⟩, ⟨.number, [' '], ['3'], 32⟩]
  let separator : Token := ⟨.mark .comma, [], [','], 33⟩
  let rest : List Token :=
    [⟨.identifier, [' '], ['B'], 35⟩, ⟨.mark .closeBrace, [' '], ['\x7d'], 37⟩]
  have htokens : Tokens.ofText text.toList
      = ⟨before ++ keyword :: name :: brace :: sibling :: comma :: member :: equals
          :: (value ++ separator :: rest), []⟩ := by
    dsimp only [text, before, keyword, name, brace, sibling, comma, member, equals,
      value, separator, rest]
    cbv
  have hother : Interspersed (before ++ []) [] [] := .other rfl .nil
  have hbefore : LeadsToEnum [] (before ++ []) [] :=
    hother.leadsToEnum (by simp) []
  have hsibling (more : List Token) :
      Reads (enumMember "E" (sibling :: comma :: more)) ⟨"X", none⟩ (comma :: more) :=
    Reads.ok rfl rfl
  have hmember (more : List Token) :
      Reads (enumMemberName "E" (member :: equals :: more)) "A" (equals :: more) :=
    Reads.ok rfl rfl
  have hsite : site.StandsAt (Tokens.ofText text.toList) (value ++ separator :: rest) := by
    rw [htokens]
    exact .behind hbefore rfl rfl rfl rfl (.cons (hsibling _) rfl .nil) (hmember _) rfl
  have hvalue : IsComputed value := ⟨by simp [value], rfl, by simp [value], by simp [value]⟩
  refine ⟨value, separator, rest, hsite, hvalue, .inl rfl, ?_⟩
  obtain ⟨first, last, source, hfirst, hlast, hslice, hread⟩ :=
    declarationsOfText_of_isComputed hsite hvalue (.inl rfl)
  obtain rfl := Option.some.inj hfirst
  obtain rfl := Option.some.inj hlast
  have hsource : slice? 22 33 text.toList = some "f(1, 2) | 3".toList := by
    decide +kernel
  obtain rfl := Option.some.inj (hsource.symm.trans hslice)
  rw [hread, htokens]
  dsimp only [site, separator, rest]
  cbv

/-- A missing value is no fault. -/
theorem declarationsOfText_without_value :
    declarationsOfText "enum E \x7b A = \x7d"
      = .ok [⟨"E", .enumeration [⟨"A", some (.string "")⟩]⟩] := by
  cbv

end Specimen.Source
