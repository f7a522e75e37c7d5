import Specimen.Proofs.Source.Continuation
import Specimen.Source.Document

/-!
# Declarations with more tokens behind them

A declaration that is read from a list of tokens is read in the same way when the list goes on.
The body of an interface or of an enumeration ends with its brace, so nothing else is asked for.
An alias without its semicolon and a namespace without its body could go on, so there the last
token matters (`EndsIn`). Main statements: `Continues.interfaceDeclaration` and its siblings for
the other kinds of declaration.
-/

namespace Specimen.Source

/-! ## Words -/

theorem TokenKind.ne_mark_of_isWord {kind : TokenKind} (h : kind.isWord = true) (mark : Mark) :
    kind ≠ .mark mark := by
  rintro rfl
  cases h

theorem eq_cons_of_expectWord {ts : List Token} {read : Taken ts String}
    (h : expectWord ts = .ok read) :
    ∃ token rest, ts = token :: rest ∧ token.kind.isWord = true ∧ read.rest = rest := by
  cases ts with
  | nil => cases h
  | cons token rest =>
      by_cases hword : token.kind.isWord = true
      · rw [expectWord, if_pos hword] at h
        cases h
        exact ⟨token, rest, rfl, hword, rfl⟩
      · rw [expectWord, if_neg hword] at h
        cases h

theorem closing_expectWord {ts : List Token} {read : Taken ts String}
    (h : expectWord ts = .ok read) : Closing ts read.rest := by
  obtain ⟨token, rest, rfl, hword, hrest⟩ := eq_cons_of_expectWord h
  rw [hrest]
  exact (phrase_word hword).closing

theorem eq_cons_of_namespaceName {ts : List Token} {read : Taken ts String}
    (h : namespaceName ts = .ok read) :
    ∃ token rest, ts = token :: rest ∧ (∀ mark, token.kind ≠ .mark mark) ∧ read.rest = rest := by
  cases ts with
  | nil => cases h
  | cons token rest =>
      by_cases hstring : token.kind = .string
      · rw [namespaceName, if_pos hstring] at h
        cases h
        exact ⟨token, rest, rfl, by simp [hstring], rfl⟩
      · rw [namespaceName, if_neg hstring] at h
        obtain ⟨word, after, hsplit, hword, hrest⟩ := eq_cons_of_expectWord h
        obtain ⟨rfl, rfl⟩ := List.cons.inj hsplit
        exact ⟨token, rest, rfl, TokenKind.ne_mark_of_isWord hword, hrest⟩

theorem closing_skipDottedWords {ts : List Token} {rest : Remaining ts}
    (h : skipDottedWords ts = .ok rest) : Closing ts rest.val := by
  cases ts with
  | nil =>
      rw [skipDottedWords] at h
      cases h
      exact .refl _
  | cons token after =>
      rw [skipDottedWords] at h
      split at h
      · rename_i hdot
        obtain ⟨word, hword, h⟩ := exists_of_bind h
        have := word.shorter
        obtain ⟨words, hwords, h⟩ := exists_of_bind h
        cases h
        have hfirst : Closing (token :: after) after := .cons (by simp [hdot, TokenKind.isOpening])
        exact hfirst.trans ((closing_expectWord hword).trans (closing_skipDottedWords hwords))
      · cases h
        exact .refl _
termination_by ts.length
decreasing_by subst_vars; simp only [List.length_cons]; omega

/-- A dotted name does not end in a mark. -/
theorem skipDottedWords_ne_nil {mark : Mark} {ts : List Token} {rest : Remaining ts}
    (h : skipDottedWords ts = .ok rest) (hlast : EndsIn mark ts) (hts : ts ≠ []) :
    rest.val ≠ [] := by
  cases ts with
  | nil => exact absurd rfl hts
  | cons token after =>
      rw [skipDottedWords] at h
      split at h
      · obtain ⟨word, hword, h⟩ := exists_of_bind h
        have := word.shorter
        obtain ⟨words, hwords, h⟩ := exists_of_bind h
        cases h
        have hafter := hlast.of_suffix (List.suffix_cons token after)
        have hlater := hafter.of_suffix (closing_expectWord hword).suffix
        obtain ⟨name, later, rfl, hkind, hrest⟩ := eq_cons_of_expectWord hword
        have hne := hrest ▸ hafter.ne_nil (TokenKind.ne_mark_of_isWord hkind mark)
        have hwordsLeft : words.val ≠ [] := skipDottedWords_ne_nil hwords hlater hne
        exact hwordsLeft
      · cases h
        exact hts
termination_by ts.length
decreasing_by subst_vars; simp only [List.length_cons] at *; omega

/-! ## Values at the end of a list -/

theorem initializer_of_atMemberEnd {token : Token} {rest : List Token}
    (h : atMemberEnd (token :: rest) = true) :
    initializer (token :: rest) = computedInitializer (token :: rest) := by
  have hkind : token.kind = .mark .comma ∨ token.kind = .mark .closeBrace := by
    simpa [atMemberEnd, startsWith] using h
  rcases hkind with hkind | hkind <;> simp [initializer, hkind]

theorem initializer_singleton (token : Token) :
    initializer [token] = computedInitializer [token] := by
  simp [initializer, atMemberEnd, startsWith]

theorem skipInitializer_nil : skipInitializer [] = [] := by
  rw [skipInitializer]

theorem skipInitializer_singleton {token : Token} (h : atMemberEnd [token] = false) :
    skipInitializer [token] = [] := by
  have hgroup : skipTree [token] = [] :=
    List.eq_nil_of_length_eq_zero (Nat.lt_one_iff.mp (length_skipTree_cons_lt token []))
  rw [skipInitializer, if_neg (Bool.eq_false_iff.mp h), hgroup, skipInitializer_nil]

theorem skipInitializer_minus {token : Token} {rest : List Token} (h : token.kind = .mark .minus) :
    skipInitializer (token :: rest) = skipInitializer rest := by
  have hgroup : skipTree (token :: rest) = rest :=
    skipTree_of_isOpening (by simp [h, TokenKind.isOpening]) rest
  rw [skipInitializer, if_neg (by simp [atMemberEnd, startsWith, h]), hgroup]

theorem skipInitializer_ne_nil {ts : List Token} {read : EnumLiteral × Remaining ts}
    (h : computedInitializer ts = .ok read) : skipInitializer ts ≠ [] := by
  unfold computedInitializer at h
  dsimp only at h
  split at h
  · cases h
  · rename_i hafter
    exact fun hnil => hafter (hnil ▸ rfl)

/-- A literal is the value of a member only if something follows it. -/
theorem atMemberEnd_of_computedInitializer {token : Token} {read : EnumLiteral × Remaining [token]}
    (h : computedInitializer [token] = .ok read) : atMemberEnd [token] = true := by
  cases hend : atMemberEnd [token] with
  | true => rfl
  | false => exact absurd (skipInitializer_singleton hend) (skipInitializer_ne_nil h)

namespace Continues

variable {more ts ts' : List Token} {tail : List Char} (tail' : List Char)

/-- The same value, and the same place behind it, for a reader that may use nothing. -/
def SameRemaining {α : Type} (more : List Token) (read : α × Remaining ts)
    (read' : α × Remaining ts') : Prop :=
  read.1 = read'.1 ∧ Continues more read.2.val read'.2.val

/-! ## Interfaces -/

theorem skipMember (h : Continues more ts ts') (hleft : skipMember ts ≠ []) :
    Continues more (skipMember ts) (Source.skipMember ts') := by
  fun_induction Source.skipMember ts generalizing ts' with
  | case1 => exact absurd rfl hleft
  | case2 token rest hseparator =>
      obtain ⟨token', rest', rfl, htoken, hrest⟩ := h.eq_cons
      rw [Source.skipMember, if_pos (htoken.kind ▸ hseparator)]
      exact hrest
  | case3 token rest hseparator hbrace =>
      obtain ⟨token', rest', rfl, htoken, hrest⟩ := h.eq_cons
      rw [Source.skipMember, if_neg (htoken.kind ▸ hseparator), if_pos (htoken.kind ▸ hbrace)]
      exact h
  | case4 token rest hseparator hbrace _ ih =>
      obtain ⟨token', rest', rfl, htoken, hrest⟩ := h.eq_cons
      rw [Source.skipMember, if_neg (htoken.kind ▸ hseparator), if_neg (htoken.kind ▸ hbrace)]
      exact ih (h.skipTree (ne_nil_of_length_le (length_skipMember_le _) hleft)) hleft

theorem endProperty (h : Continues more ts ts') {rest : Remaining ts}
    (hread : endProperty tail ts = .ok rest) (hleft : rest.val ≠ []) :
    Gives (fun rest' => Continues more rest.val rest'.val) (Source.endProperty tail' ts') := by
  cases h with
  | nil => exact absurd rfl (ne_nil_of_length_le rest.property hleft)
  | @cons token token' after after' htoken hdot hafter =>
      simp only [Source.endProperty, ← htoken.kind, ← htoken.gap] at hread ⊢
      revert hread
      split
      · rintro ⟨⟩
        exact .ok hafter
      split
      · rintro ⟨⟩
        exact .ok (.cons htoken hdot hafter)
      · rintro ⟨⟩

theorem propertyType (h : Continues more ts ts') {read : TypeRef × Remaining ts}
    (hread : propertyType ts = .ok read) (hleft : read.2.val ≠ []) :
    Gives (SameRemaining more read) (Source.propertyType ts') := by
  cases h with
  | nil => exact absurd rfl (ne_nil_of_length_le read.2.property hleft)
  | @cons token token' rest rest' htoken hdot hrest =>
      simp only [Source.propertyType, ← htoken.kind] at hread ⊢
      revert hread
      split <;> intro hread
      · obtain ⟨type, htype, hread⟩ := exists_of_bind hread
        cases hread
        exact (hrest.typeExpr htype hleft).bind fun type' hsame => .ok ⟨hsame.value, hsame.rest⟩
      · cases hread
        exact .ok ⟨rfl, .cons htoken hdot hrest⟩

theorem property (h : Continues more ts ts') {name : List Char} {read : Option Field × Remaining ts}
    (hread : property tail name ts = .ok read) (hleft : read.2.val ≠ []) :
    Gives (SameRemaining more read) (Source.property tail' name ts') := by
  unfold Source.property at hread ⊢
  dsimp only [Remaining.skipping, Remaining.all, Remaining.andThen] at hread ⊢
  have hts := ne_nil_of_length_le read.2.property hleft
  have hafter := h.dropOptional hts (.mark .question)
  have hne : Source.dropOptional (.mark .question) ts ≠ [] := by
    split at hread
    · cases hread
      exact ne_nil_of_length_le (length_skipMember_le _) hleft
    · obtain ⟨type, -, hread⟩ := exists_of_bind hread
      obtain ⟨rest, -, hread⟩ := exists_of_bind hread
      cases hread
      have htype := ne_nil_of_length_le rest.property hleft
      exact ne_nil_of_length_le type.2.property htype
  rw [← hafter.startsWith_eq hne, ← hafter.startsWith_eq hne, ← h.startsWith_eq hts]
  revert hread
  split <;> intro hread
  · cases hread
    exact .ok ⟨rfl, hafter.skipMember hleft⟩
  · obtain ⟨type, htype, hread⟩ := exists_of_bind hread
    obtain ⟨rest, hrest, hread⟩ := exists_of_bind hread
    cases hread
    have hbehind := ne_nil_of_length_le rest.property hleft
    refine (hafter.propertyType htype hbehind).bind fun type' htype' => ?_
    refine (htype'.2.endProperty tail' hrest hleft).bind fun rest' hrest' => ?_
    refine .ok ⟨?_, hrest'⟩
    rw [htype'.1]

theorem dropReadonly (h : Continues more ts ts') (hleft : dropReadonly ts ≠ []) :
    Continues more (dropReadonly ts) (Source.dropReadonly ts') := by
  cases h with
  | nil => exact absurd rfl hleft
  | @cons token token' rest rest' htoken hdot hrest =>
      by_cases hreadonly : token.kind = .keyword .readonly
      · have hne : rest ≠ [] := by
          rintro rfl
          simp [Source.dropReadonly, hreadonly, startsWith] at hleft
        simp only [Source.dropReadonly, ← htoken.kind, ← hrest.startsWith_eq hne]
        split
        · exact hrest
        · exact .cons htoken hdot hrest
      · simp only [Source.dropReadonly, ← htoken.kind, hreadonly, false_and, if_false]
        exact .cons htoken hdot hrest

theorem plainMember (h : Continues more ts ts') {read : Taken ts (Option Field)}
    (hread : plainMember tail ts = .ok read) (hleft : read.rest ≠ []) :
    Gives (SameRead more read) (Source.plainMember tail' ts') := by
  cases h with
  | nil => exact absurd rfl read.ne_nil
  | @cons token token' rest rest' htoken hdot hrest =>
      have h : Continues more (token :: rest) (token' :: rest') := .cons htoken hdot hrest
      have hnamed (name : List Char)
          (hread :
            (plainMember.named tail name : Except Fault (Taken (token :: rest) _)) = .ok read) :
          Gives (SameRead more read)
            (plainMember.named tail' name : Except Fault (Taken (token' :: rest') _)) := by
        obtain ⟨field, hfield, hread⟩ := exists_of_bind hread
        cases hread
        exact (hrest.property tail' hfield hleft).bind fun _ hsame => .ok ⟨hsame.1, hsame.2⟩
      have hskipped (hmember : Source.skipMember (Source.skipTree (token :: rest)) ≠ []) :
          Continues more (Source.skipMember (Source.skipTree (token :: rest)))
            (Source.skipMember (Source.skipTree (token' :: rest'))) :=
        (h.skipTree (ne_nil_of_length_le (length_skipMember_le _) hmember)).skipMember hmember
      simp only [Source.plainMember, ← htoken.kind, ← htoken.text] at hread ⊢
      generalize token.kind = kind at hread ⊢
      revert hread
      split <;> intro hread
      case h_1 | h_2 => exact hnamed _ hread
      case h_3 | h_4 | h_5 =>
        cases hread
        exact .ok ⟨rfl, hskipped hleft⟩
      case h_6 | h_7 =>
        cases hread
        exact .ok ⟨rfl, hrest⟩
      case h_8 =>
        revert hread
        split
        · exact hnamed _
        · rintro ⟨⟩

theorem member (h : Continues more ts ts') {read : Taken ts (Option Field)}
    (hread : member tail ts = .ok read) (hleft : read.rest ≠ []) :
    Gives (SameRead more read) (Source.member tail' ts') := by
  obtain ⟨plain, hplain, rfl⟩ := exists_of_map hread
  refine ((h.dropReadonly plain.ne_nil).plainMember tail' hplain hleft).map fun _ hsame => ?_
  exact ⟨hsame.value, hsame.rest⟩

theorem interfaceBody {more ts ts' : List Token} (h : Continues more ts ts') {tail : List Char}
    (tail' : List Char) {name : String} {read : Taken ts (List Field)}
    (hread : interfaceBody tail name ts = .ok read) :
    Gives (SameRead more read) (Source.interfaceBody tail' name ts') := by
  cases ts with
  | nil => exact absurd rfl read.ne_nil
  | cons token rest =>
      obtain ⟨token', rest', rfl, htoken, hrest⟩ := h.eq_cons
      rw [Source.interfaceBody] at hread ⊢
      rw [← htoken.kind]
      revert hread
      split <;> intro hread
      · cases hread
        exact .ok ⟨rfl, hrest⟩
      · obtain ⟨first, hfirst, hread⟩ := exists_of_bind hread
        have := first.shorter
        obtain ⟨others, hothers, hread⟩ := exists_of_bind hread
        cases hread
        refine (h.member tail' hfirst others.ne_nil).bind fun first' hfirst' => ?_
        refine (hfirst'.rest.interfaceBody tail' hothers).bind fun others' hothers' => ?_
        refine .ok ⟨?_, hothers'.rest⟩
        exact congrArg₂ (fun field fields => Option.toList field ++ fields) hfirst'.value
          hothers'.value
termination_by ts.length
decreasing_by subst_vars; assumption

/-! ## Enumerations -/

theorem atMemberEnd_eq (h : Continues more ts ts') (hts : ts ≠ []) :
    atMemberEnd ts = atMemberEnd ts' := by
  simp only [atMemberEnd, h.startsWith_eq hts]

theorem skipInitializer (h : Continues more ts ts') (hleft : skipInitializer ts ≠ []) :
    Continues more (skipInitializer ts) (Source.skipInitializer ts') := by
  fun_induction Source.skipInitializer ts generalizing ts' with
  | case1 => exact absurd rfl hleft
  | case2 token rest hend =>
      obtain ⟨token', rest', rfl, -, -⟩ := h.eq_cons
      rw [Source.skipInitializer, if_pos (h.atMemberEnd_eq (List.cons_ne_nil _ _) ▸ hend)]
      exact h
  | case3 token rest hend _ ih =>
      obtain ⟨token', rest', rfl, -, -⟩ := h.eq_cons
      rw [Source.skipInitializer, if_neg (h.atMemberEnd_eq (List.cons_ne_nil _ _) ▸ hend)]
      exact ih (h.skipTree (ne_nil_of_length_le (length_skipInitializer_le _) hleft)) hleft

theorem numberLiteral {literal : List Char} {value : Float}
    (hread : numberLiteral literal ts = .ok value) :
    Gives (value = ·) (Source.numberLiteral literal ts') := by
  unfold Source.numberLiteral at hread ⊢
  split at hread
  · cases hread
    exact .ok rfl
  · cases hread

theorem computedInitializer (h : Continues more ts ts') {read : EnumLiteral × Remaining ts}
    (hread : computedInitializer ts = .ok read) :
    Gives (SameRemaining more read) (Source.computedInitializer ts') := by
  have hleft := skipInitializer_ne_nil hread
  have hskip := h.skipInitializer hleft
  have hleft' : Source.skipInitializer ts' ≠ [] :=
    ne_nil_of_length_le (hskip.length_eq ▸ Nat.le_add_right _ _) hleft
  unfold Source.computedInitializer at hread ⊢
  dsimp only at hread ⊢
  rw [if_neg (mt List.isEmpty_iff.mp hleft)] at hread
  rw [if_neg (mt List.isEmpty_iff.mp hleft')]
  cases hread
  exact .ok ⟨congrArg _ (h.spanText_eq hskip), hskip⟩

theorem initializer (h : Continues more ts ts') {read : EnumLiteral × Remaining ts}
    (hread : initializer ts = .ok read) :
    Gives (SameRemaining more read) (Source.initializer ts') := by
  cases h with
  | nil => exact absurd skipInitializer_nil (skipInitializer_ne_nil hread)
  | @cons token token' rest rest' htoken hdot hrest =>
      have h : Continues more (token :: rest) (token' :: rest') := .cons htoken hdot hrest
      by_cases hafter : rest = []
      · subst hafter
        rw [initializer_singleton] at hread
        have hend := atMemberEnd_of_computedInitializer hread
        rw [h.atMemberEnd_eq (List.cons_ne_nil _ _)] at hend
        rw [initializer_of_atMemberEnd hend]
        exact h.computedInitializer hread
      simp only [Source.initializer, ← htoken.kind, ← htoken.text, ← hrest.atMemberEnd_eq hafter]
        at hread ⊢
      revert hread
      split
      · rintro ⟨⟩
        exact .ok ⟨rfl, hrest⟩
      split
      · intro hread
        obtain ⟨value, hvalue, hread⟩ := exists_of_bind hread
        cases hread
        exact (numberLiteral hvalue).bind fun _ hsame => .ok ⟨congrArg _ hsame, hrest⟩
      split
      · rename_i hminus
        cases hrest with
        | nil => exact absurd rfl hafter
        | @cons literal literal' after after' hliteral hdot' hlater =>
            simp only [← hliteral.kind, ← hliteral.text]
            by_cases hlast : after = []
            · subst hlast
              rw [if_neg (by simp [atMemberEnd, startsWith])]
              intro hread
              have hleft := skipInitializer_ne_nil hread
              rw [skipInitializer_minus hminus] at hleft
              rw [if_neg]
              · exact h.computedInitializer hread
              · rintro ⟨hnumber, -⟩
                refine hleft (skipInitializer_singleton ?_)
                simp [atMemberEnd, startsWith, hnumber]
            simp only [← hlater.atMemberEnd_eq hlast]
            split
            · intro hread
              obtain ⟨value, hvalue, hread⟩ := exists_of_bind hread
              cases hread
              exact (numberLiteral hvalue).bind fun _ hsame =>
                .ok ⟨congrArg (fun value => EnumLiteral.number (-value)) hsame, hlater⟩
            · exact h.computedInitializer
      · exact h.computedInitializer

theorem enumMemberName (h : Continues more ts ts') {enumeration : String} {read : Taken ts String}
    (hread : enumMemberName enumeration ts = .ok read) :
    Gives (SameRead more read) (Source.enumMemberName enumeration ts') := by
  cases h with
  | nil => cases hread
  | @cons token token' rest rest' htoken hdot hrest =>
      simp only [Source.enumMemberName, ← htoken.kind, ← htoken.text] at hread ⊢
      revert hread
      split
      · rintro ⟨⟩
        exact .ok ⟨rfl, hrest⟩
      split
      · rintro ⟨⟩
        exact .ok ⟨rfl, hrest⟩
      · rintro ⟨⟩

theorem enumMember (h : Continues more ts ts') {enumeration : String} {read : Taken ts EnumMember}
    (hread : enumMember enumeration ts = .ok read) (hleft : read.rest ≠ []) :
    Gives (SameRead more read) (Source.enumMember enumeration ts') := by
  unfold Source.enumMember at hread ⊢
  obtain ⟨⟨name, rest, hshort⟩, hname, hread⟩ := exists_of_bind hread
  refine (h.enumMemberName hname).bind fun name' hname' => ?_
  obtain ⟨name', rest', hshort'⟩ := name'
  obtain ⟨hname, hrest⟩ := hname'
  dsimp only at hname hread
  subst hname
  cases hrest with
  | nil =>
      cases hread
      exact absurd rfl hleft
  | cons htoken hdot hafter =>
      simp only [← htoken.kind]
      revert hread
      dsimp only
      split <;> intro hread
      · obtain ⟨value, hvalue, hread⟩ := exists_of_bind hread
        cases hread
        refine (hafter.initializer hvalue).bind fun value' hvalue' => .ok ⟨?_, hvalue'.2⟩
        exact congrArg (fun value => EnumMember.mk name (some value)) hvalue'.1
      · cases hread
        exact .ok ⟨rfl, .cons htoken hdot hafter⟩

theorem enumBody {more ts ts' : List Token} (h : Continues more ts ts') {enumeration : String}
    {read : Taken ts (List EnumMember)} (hread : enumBody enumeration ts = .ok read) :
    Gives (SameRead more read) (Source.enumBody enumeration ts') := by
  cases ts with
  | nil => exact absurd rfl read.ne_nil
  | cons token rest =>
      obtain ⟨token', rest', rfl, htoken, hrest⟩ := h.eq_cons
      rw [Source.enumBody] at hread ⊢
      rw [← htoken.kind]
      revert hread
      split <;> intro hread
      · cases hread
        exact .ok ⟨rfl, hrest⟩
      obtain ⟨⟨member, left, hshort⟩, hfirst, hread⟩ := exists_of_bind hread
      cases left with
      | nil => cases hread
      | cons separator after =>
          have hlater := Nat.lt_trans (length_lt_cons separator after) hshort
          refine
            (h.enumMember hfirst (List.cons_ne_nil separator after)).bind fun first' hsame => ?_
          obtain ⟨member', left', hshort'⟩ := first'
          obtain ⟨hmember, hleft⟩ := hsame
          obtain ⟨separator', after', rfl, hseparator, hafter⟩ := hleft.eq_cons
          simp only [← hseparator.kind]
          dsimp only at hread hmember
          subst hmember
          revert hread
          split
          · intro hread
            obtain ⟨others, hothers, hread⟩ := exists_of_bind hread
            cases hread
            exact (hafter.enumBody hothers).bind fun _ hsame =>
              .ok ⟨congrArg (member :: ·) hsame.value, hsame.rest⟩
          split
          · rintro ⟨⟩
            exact .ok ⟨rfl, hafter⟩
          · rintro ⟨⟩
termination_by ts.length
decreasing_by subst_vars; assumption

/-! ## Declarations -/

theorem heritage {more ts ts' : List Token} (h : Continues more ts ts') {read : Taken ts Unit}
    (hread : heritage ts = .ok read) (hleft : read.rest ≠ []) :
    Gives (SameRead more read) (Source.heritage ts') := by
  rw [Source.heritage] at hread ⊢
  obtain ⟨⟨type, rest, hshort⟩, hfirst, hread⟩ := exists_of_bind hread
  cases rest with
  | nil =>
      cases hread
      exact absurd rfl hleft
  | cons token after =>
      have hlater := Nat.lt_trans (length_lt_cons token after) hshort
      refine (h.typeExpr hfirst (List.cons_ne_nil token after)).bind fun first' hsame => ?_
      obtain ⟨type', rest', hshort'⟩ := first'
      obtain ⟨-, hrest⟩ := hsame
      obtain ⟨token', after', rfl, htoken, hafter⟩ := hrest.eq_cons
      simp only [← htoken.kind]
      dsimp only at hread
      revert hread
      split <;> intro hread
      · obtain ⟨others, hothers, hread⟩ := exists_of_bind hread
        cases hread
        exact (hafter.heritage hothers hleft).bind fun _ hsame => .ok ⟨rfl, hsame.rest⟩
      · cases hread
        exact .ok ⟨rfl, hrest⟩
termination_by ts.length

theorem skipHeritage (h : Continues more ts ts') {rest : Remaining ts}
    (hread : skipHeritage ts = .ok rest) (hleft : rest.val ≠ []) :
    Gives (fun rest' => Continues more rest.val rest'.val) (Source.skipHeritage ts') := by
  cases h with
  | nil => exact absurd rfl (ne_nil_of_length_le rest.property hleft)
  | @cons token token' after after' htoken hdot hafter =>
      simp only [Source.skipHeritage, ← htoken.kind] at hread ⊢
      revert hread
      split <;> intro hread
      · obtain ⟨types, htypes, hread⟩ := exists_of_bind hread
        cases hread
        exact (hafter.heritage htypes hleft).bind fun _ hsame => .ok hsame.rest
      · cases hread
        exact .ok (.cons htoken hdot hafter)

theorem interfaceDeclaration (h : Continues more ts ts') {read : Taken ts Declaration}
    (hread : interfaceDeclaration tail ts = .ok read) :
    Gives (SameRead more read) (Source.interfaceDeclaration tail' ts') := by
  obtain ⟨name, hname, hread⟩ := exists_of_bind hread
  obtain ⟨heritage, hheritage, hread⟩ := exists_of_bind hread
  obtain ⟨brace, hbrace, hread⟩ := exists_of_bind hread
  obtain ⟨fields, hfields, hread⟩ := exists_of_bind hread
  cases hread
  have hhead := ne_nil_of_length_le heritage.property brace.ne_nil
  refine (h.expectWord hname).bind fun name' hname' => ?_
  refine ((hname'.rest.skipTypeParameters hhead).skipHeritage hheritage brace.ne_nil).bind
    fun heritage' hheritage' => ?_
  refine (hheritage'.expect hbrace).bind fun brace' hbrace' => ?_
  rw [← hname'.value]
  refine (hbrace'.rest.interfaceBody tail' hfields).bind fun fields' hfields' => ?_
  refine .ok ⟨?_, hfields'.rest⟩
  exact congrArg (fun fields => Declaration.mk name.value (.interface fields)) hfields'.value

theorem enumDeclaration (h : Continues more ts ts') {read : Taken ts Declaration}
    (hread : enumDeclaration ts = .ok read) :
    Gives (SameRead more read) (Source.enumDeclaration ts') := by
  obtain ⟨name, hname, hread⟩ := exists_of_bind hread
  obtain ⟨brace, hbrace, hread⟩ := exists_of_bind hread
  obtain ⟨members, hmembers, hread⟩ := exists_of_bind hread
  cases hread
  refine (h.expectWord hname).bind fun name' hname' => ?_
  refine (hname'.rest.expect hbrace).bind fun brace' hbrace' => ?_
  rw [← hname'.value]
  refine (hbrace'.rest.enumBody hmembers).bind fun members' hmembers' => ?_
  refine .ok ⟨?_, hmembers'.rest⟩
  exact congrArg (fun members => Declaration.mk name.value (.enumeration members)) hmembers'.value

theorem aliasDeclaration (h : Continues more ts ts') {read : Taken ts Declaration}
    (hread : aliasDeclaration ts = .ok read) (hclosed : IsClosed ts)
    (hlast : EndsIn .semicolon ts) : Gives (SameRead more read) (Source.aliasDeclaration ts') := by
  obtain ⟨name, hname, hread⟩ := exists_of_bind hread
  obtain ⟨equals, hequals, hread⟩ := exists_of_bind hread
  obtain ⟨target, htarget, hread⟩ := exists_of_bind hread
  cases hread
  have hhead : Closing ts (Source.skipTypeParameters name.rest) :=
    (closing_expectWord hname).trans (closing_skipTypeParameters (.inl equals.ne_nil))
  have hbefore : equals.rest <:+ ts :=
    (hhead.trans (phrase_expect hequals rfl (by decide)).closing).suffix
  -- at the end of the list the last token would belong to the type
  have hleft : target.rest ≠ [] := by
    intro hnil
    obtain ⟨front, hsplit, hphrase⟩ :=
      phrase_typeExpr htarget (.inr (hclosed.of_suffix hbefore))
    rw [hnil, List.append_nil] at hsplit
    obtain ⟨last, hphraseLast, hkind⟩ := hphrase.last
    exact hkind (hlast.of_suffix hbefore last (hsplit ▸ hphraseLast))
  refine (h.expectWord hname).bind fun name' hname' => ?_
  refine ((hname'.rest.skipTypeParameters equals.ne_nil).expect hequals).bind
    fun equals' hequals' => ?_
  refine (hequals'.rest.typeExpr htarget hleft).bind fun target' htarget' => ?_
  refine .ok ⟨?_, htarget'.rest.dropOptional hleft _⟩
  exact congrArg₂ (fun name target => Declaration.mk name (.alias target)) hname'.value
    htarget'.value

theorem namespaceName (h : Continues more ts ts') {read : Taken ts String}
    (hread : namespaceName ts = .ok read) :
    Gives (SameRead more read) (Source.namespaceName ts') := by
  cases h with
  | nil => cases hread
  | @cons token token' rest rest' htoken hdot hrest =>
      simp only [Source.namespaceName, ← htoken.kind, ← htoken.text] at hread ⊢
      revert hread
      split
      · rintro ⟨⟩
        exact .ok ⟨rfl, hrest⟩
      · exact (Continues.cons htoken hdot hrest).expectWord

theorem skipDottedWords {more ts ts' : List Token} (h : Continues more ts ts')
    {rest : Remaining ts} (hread : skipDottedWords ts = .ok rest) (hleft : rest.val ≠ []) :
    Gives (fun rest' => Continues more rest.val rest'.val) (Source.skipDottedWords ts') := by
  cases ts with
  | nil => exact absurd rfl (ne_nil_of_length_le rest.property hleft)
  | cons token after =>
      obtain ⟨token', after', rfl, htoken, hafter⟩ := h.eq_cons
      rw [Source.skipDottedWords] at hread ⊢
      rw [← htoken.kind]
      revert hread
      split <;> intro hread
      · obtain ⟨word, hword, hread⟩ := exists_of_bind hread
        have := word.shorter
        obtain ⟨words, hwords, hread⟩ := exists_of_bind hread
        cases hread
        refine (hafter.expectWord hword).bind fun word' hword' => ?_
        exact (hword'.rest.skipDottedWords hwords hleft).bind fun _ hsame => .ok hsame
      · cases hread
        exact .ok h
termination_by ts.length
decreasing_by subst_vars; simp only [List.length_cons]; omega

theorem skipNamespaceBody (h : Continues more ts ts') (hts : ts ≠ []) (hclosed : IsClosed ts) :
    Continues more (skipNamespaceBody ts) (Source.skipNamespaceBody ts') := by
  simp only [Source.skipNamespaceBody, ← h.startsWith_eq hts]
  split
  · obtain ⟨token, rest, rfl⟩ := List.exists_cons_of_ne_nil hts
    exact h.closeGroup (endsGroup_of_depthThrough hclosed)
  · exact h.dropOptional hts _

theorem namespaceDeclaration {mark : Mark} (h : Continues more ts ts') {read : Taken ts Declaration}
    (hread : namespaceDeclaration ts = .ok read) (hclosed : IsClosed ts) (hlast : EndsIn mark ts) :
    Gives (SameRead more read) (Source.namespaceDeclaration ts') := by
  obtain ⟨name, hname, hread⟩ := exists_of_bind hread
  obtain ⟨words, hwords, hread⟩ := exists_of_bind hread
  cases hread
  obtain ⟨token, rest, rfl, hkind, hrest⟩ := eq_cons_of_namespaceName hname
  have hafter : name.rest <:+ token :: rest := by
    rw [hrest]
    exact List.suffix_cons token rest
  have hne : name.rest ≠ [] := by
    rw [hrest]
    exact hlast.ne_nil (hkind mark)
  have hleft := skipDottedWords_ne_nil hwords (hlast.of_suffix hafter) hne
  have hbody := hclosed.of_suffix ((closing_skipDottedWords hwords).suffix.trans hafter)
  refine (h.namespaceName hname).bind fun name' hname' => ?_
  refine (hname'.rest.skipDottedWords hwords hleft).bind fun words' hwords' => ?_
  exact .ok ⟨congrArg (fun name => Declaration.mk name .namespace) hname'.value,
    hwords'.skipNamespaceBody hleft hbody⟩

end Continues

end Specimen.Source
