import Specimen.Proofs.Source.Brackets
import Specimen.Source.TypeExpression

/-!
# How far types go

What is read as a type is a phrase: a run of tokens that closes all its brackets and does not end
with a semicolon. Otherwise the type has used all tokens, and they end inside a group of the type
(`Reach`). This is excluded for types that leave something, or that are read from closed tokens
(`Settled`). The statements follow the readers, which call each other. Main statements:
`reach_typeExpr` and `phrase_typeExpr`.
-/

namespace Specimen.Source

/-! ## Phrases -/

/-- A closed run of tokens, at least one, that does not end with a semicolon. -/
structure IsPhrase (ts : List Token) : Prop where
  closed : IsClosed ts
  last : ∃ token, ts.getLast? = some token ∧ token.kind ≠ .mark .semicolon

/-- From one place to the other there is a phrase. -/
def Phrase (ts rest : List Token) : Prop :=
  ∃ front, ts = front ++ rest ∧ IsPhrase front

section Phrases

variable {ts middle rest : List Token} {token : Token}

theorem Phrase.closing (h : Phrase ts rest) : Closing ts rest := by
  obtain ⟨front, hsplit, hfront⟩ := h
  exact ⟨front, hsplit, hfront.closed⟩

theorem Closing.phrase (h : Closing ts middle) (hrest : Phrase middle rest) : Phrase ts rest := by
  obtain ⟨front, rfl, hfront⟩ := h
  obtain ⟨front', rfl, hclosed, token, hlast, hkind⟩ := hrest
  refine ⟨front ++ front', (List.append_assoc _ _ _).symm, hfront.append hclosed, token, ?_, hkind⟩
  rw [List.getLast?_append, hlast, Option.some_or]

theorem Phrase.trans (h : Phrase ts middle) (hrest : Phrase middle rest) : Phrase ts rest :=
  h.closing.phrase hrest

/-- A phrase and perhaps another one behind it. -/
theorem Phrase.andThen (h : Phrase ts middle) (hrest : rest = middle ∨ Phrase middle rest) :
    Phrase ts rest := by
  rcases hrest with rfl | hrest
  · exact h
  · exact h.trans hrest

theorem Phrase.one (hopen : token.kind.isOpening = false)
    (hkind : token.kind ≠ .mark .semicolon) : Phrase (token :: rest) rest :=
  ⟨[token], rfl, isClosed_singleton hopen, token, rfl, hkind⟩

/-- A bracketed group is a phrase: its last token is a closing bracket. -/
theorem phrase_skipTree (hopen : token.kind.isOpening = true)
    (h : endsGroup 0 (token :: rest) = true) :
    Phrase (token :: rest) (skipTree (token :: rest)) := by
  obtain ⟨front, last, hsplit, hclosed, hlast⟩ := exists_front_of_endsGroup h
  refine ⟨front ++ [last], hsplit, hclosed, last, List.getLast?_concat, ?_⟩
  rintro hsemicolon
  rcases hlast with hclosing | rfl
  · simp [hsemicolon, TokenKind.isClosing] at hclosing
  · obtain ⟨rfl, -⟩ := List.cons.inj hsplit
    simp [hsemicolon, TokenKind.isOpening] at hopen

/-- From one place to the other there is a phrase, or the tokens end inside a group. -/
def Reach (ts rest : List Token) : Prop :=
  Phrase ts rest ∨ (rest = [] ∧ CutOff ts)

theorem Reach.phrase (h : Reach ts rest) (hsettled : Settled ts rest) : Phrase ts rest := by
  rcases h with h | ⟨rfl, hcut⟩
  · exact h
  · exact absurd (hsettled.resolve_left (· rfl)) hcut.not_isClosed

theorem Closing.reach (h : Closing ts middle) (hrest : Reach middle rest) : Reach ts rest :=
  hrest.imp h.phrase (And.imp_right h.cutOff)

/-- A reader that may use nothing, behind one that has used something. -/
theorem Reach.andThen (h : Reach ts middle) (hrest : rest = middle ∨ Reach middle rest) :
    Reach ts rest := by
  rcases hrest with rfl | hrest
  · exact h
  rcases h with h | ⟨rfl, -⟩
  · exact h.closing.reach hrest
  · rcases hrest with ⟨front, hsplit, -, last, hlast, -⟩ | ⟨-, hcut⟩
    · obtain ⟨rfl, -⟩ := List.append_eq_nil_iff.mp hsplit.symm
      cases hlast
    · exact absurd rfl hcut.ne_nil

theorem reach_skipTree
    (hkind : token.kind = .mark .openBrace ∨ token.kind = .mark .openBracket) :
    Reach (token :: rest) (skipTree (token :: rest)) := by
  cases hgroup : endsGroup 0 (token :: rest) with
  | true =>
      have hopen : token.kind.isOpening = true := by
        rcases hkind with hkind | hkind <;> simp [hkind, TokenKind.isOpening]
      exact .inl (phrase_skipTree hopen hgroup)
  | false => exact .inr ⟨closeGroup_eq_nil hgroup, [], token, rest, rfl, rfl, hkind, hgroup⟩

end Phrases

/-! ## Successful readers -/

theorem exists_of_bind {α β : Type} {result : Except Fault α} {next : α → Except Fault β} {y : β}
    (h : (result >>= next) = .ok y) : ∃ x, result = .ok x ∧ next x = .ok y := by
  cases result with
  | error fault => cases h
  | ok x => exact ⟨x, rfl, h⟩

theorem exists_of_map {α β : Type} {result : Except Fault α} {f : α → β} {y : β}
    (h : result.map f = .ok y) : ∃ x, result = .ok x ∧ f x = y := by
  cases result with
  | error fault => cases h
  | ok x => exact ⟨x, rfl, Except.ok.inj h⟩

theorem eq_cons_of_expect {kind : TokenKind} {ts : List Token} {read : Taken ts Unit}
    (h : expect kind ts = .ok read) :
    ∃ token rest, ts = token :: rest ∧ token.kind = kind ∧ read.rest = rest := by
  cases ts with
  | nil => cases h
  | cons token rest =>
      by_cases hsame : token.kind = kind
      · rw [expect, if_pos hsame] at h
        cases h
        exact ⟨token, rest, rfl, hsame, rfl⟩
      · rw [expect, if_neg hsame] at h
        cases h

theorem phrase_expect {kind : TokenKind} {ts : List Token} {read : Taken ts Unit}
    (h : expect kind ts = .ok read) (hopen : kind.isOpening = false)
    (hkind : kind ≠ .mark .semicolon) : Phrase ts read.rest := by
  obtain ⟨token, rest, rfl, hsame, hrest⟩ := eq_cons_of_expect h
  rw [hrest]
  exact .one (hsame ▸ hopen) (hsame ▸ hkind)

theorem phrase_word {token : Token} {rest : List Token} (h : token.kind.isWord = true) :
    Phrase (token :: rest) rest := by
  apply Phrase.one <;> cases hkind : token.kind <;> simp_all [TokenKind.isWord, TokenKind.isOpening]

theorem startsWith_eq_true {kind : TokenKind} {ts : List Token} (h : startsWith kind ts = true) :
    ∃ token rest, ts = token :: rest ∧ token.kind = kind := by
  cases ts with
  | nil => cases h
  | cons token rest => exact ⟨token, rest, rfl, by simpa [startsWith] using h⟩

theorem ne_nil_of_startsWith {kind : TokenKind} {ts : List Token}
    (h : startsWith kind ts = true) : ts ≠ [] := by
  obtain ⟨token, rest, rfl, -⟩ := startsWith_eq_true h
  exact List.cons_ne_nil token rest

theorem length_tail_lt_of_startsWith {kind : TokenKind} {ts : List Token}
    (h : startsWith kind ts = true) : ts.tail.length < ts.length := by
  obtain ⟨token, rest, rfl, -⟩ := startsWith_eq_true h
  exact length_lt_cons token rest

/-! ## The parts of types -/

theorem isOpening_of_isJoint {kind : TokenKind} (h : isJoint kind = true) :
    kind.isOpening = false := by
  unfold isJoint at h
  rcases Bool.or_eq_true_iff.mp h with hpipe | hampersand
  · rw [eq_of_beq hpipe]
    rfl
  · rw [eq_of_beq hampersand]
    rfl

theorem closing_dropJoint (ts : List Token) : Closing ts (dropJoint ts) := by
  cases ts with
  | nil => exact .refl _
  | cons token rest =>
      by_cases hjoint : isJoint token.kind = true
      · rw [dropJoint, if_pos hjoint]
        exact .cons (isOpening_of_isJoint hjoint)
      · rw [dropJoint, if_neg hjoint]
        exact .refl _

theorem phrase_dottedTail (ts : List Token) :
    (dottedTail ts).2 = ts ∨ Phrase ts (dottedTail ts).2 := by
  fun_induction dottedTail ts with
  | case1 dot word rest hdot name after hname ih =>
      have hfirst : Phrase (dot :: word :: rest) rest := by
        have hclosing : Closing (dot :: word :: rest) (word :: rest) :=
          .cons (by simp [hdot.1, TokenKind.isOpening])
        exact hclosing.phrase (phrase_word hdot.2)
      rw [hname] at ih
      exact .inr (hfirst.andThen ih)
  | case2 => exact .inl rfl
  | case3 => exact .inl rfl

theorem reach_arraySuffixes (start : List Token) (type : TypeRef) (ts : List Token) :
    (arraySuffixes start type ts).2 = ts ∨ Reach ts (arraySuffixes start type ts).2 := by
  fun_induction arraySuffixes start type ts with
  | case1 => exact .inl rfl
  | case2 type token rest hopen hclose ih =>
      obtain ⟨close, after, rfl, hkind⟩ := startsWith_eq_true hclose
      have hbrackets : Phrase (token :: close :: after) after := by
        refine ⟨[token, close], rfl, ?_, close, rfl, by simp [hkind]⟩
        simp [IsClosed, depthThrough, TokenKind.depthAfter, hopen, hkind, TokenKind.isOpening,
          TokenKind.isClosing]
      exact .inr (Reach.andThen (.inl hbrackets) ih)
  | case3 type token rest hopen _ _ after ih =>
      exact .inr ((reach_skipTree (.inr hopen)).andThen ih)
  | case4 => exact .inl rfl

theorem phrase_signatureHead {ts : List Token} {read : Taken ts Unit}
    (h : signatureHead ts = .ok read) : Phrase ts read.rest := by
  cases ts with
  | nil => cases h
  | cons token rest =>
      by_cases hopen : token.kind = .mark .openParen
      · rw [signatureHead, if_pos hopen] at h
        obtain ⟨arrow, harrow, rfl⟩ := exists_of_map h
        have hends : endsGroup 0 (token :: rest) = true := endsGroup_of_ne_nil arrow.ne_nil
        have hgroup := phrase_skipTree (by simp [hopen, TokenKind.isOpening]) hends
        exact hgroup.trans (phrase_expect harrow rfl (by decide))
      · rw [signatureHead, if_neg hopen] at h
        cases h

/-- Brackets around a phrase are a phrase. -/
theorem phrase_brackets {token : Token} {rest inner : List Token} {close : Taken inner Unit}
    (hopen : token.kind = .mark .openParen) (hinner : Phrase rest inner)
    (h : expect (.mark .closeParen) inner = .ok close) : Phrase (token :: rest) close.rest := by
  obtain ⟨front, rfl, hfront⟩ := hinner
  obtain ⟨last, after, rfl, hlast, hrest⟩ := eq_cons_of_expect h
  have hclosed : IsClosed (token :: front ++ [last]) :=
    hfront.closed.group (by simp [hopen, TokenKind.isOpening])
      (by simp [hlast, TokenKind.isClosing])
  refine ⟨token :: front ++ [last], ?_, hclosed, last, List.getLast?_concat, by simp [hlast]⟩
  rw [hrest, List.append_assoc, List.cons_append]
  rfl

/-! ## The readers of types

The lengths that are noted between two readers show that the readers end, as in their definitions.
-/

mutual

theorem reach_typeExpr {ts : List Token} {read : Taken ts TypeRef} (h : typeExpr ts = .ok read) :
    Reach ts read.rest := by
  rw [typeExpr] at h
  have hle := length_dropJoint_le ts
  have hfirst := closing_dropJoint ts
  obtain ⟨chain, hchain, h⟩ := exists_of_bind h
  have := chain.shorter
  split at h
  · rename_i hextends
    obtain ⟨extends_, after, hrest, hkind⟩ := startsWith_eq_true hextends
    have hextends : Closing chain.rest chain.rest.tail := by
      rw [hrest]
      exact .cons (by simp [hkind, TokenKind.isOpening])
    have := length_tail_le chain.rest
    obtain ⟨bound, hbound, h⟩ := exists_of_bind h
    have := bound.shorter
    obtain ⟨question, hquestion, h⟩ := exists_of_bind h
    have := question.shorter
    obtain ⟨whenTrue, hwhenTrue, h⟩ := exists_of_bind h
    have := whenTrue.shorter
    obtain ⟨colon, hcolon, h⟩ := exists_of_bind h
    have := colon.shorter
    obtain ⟨whenFalse, hwhenFalse, h⟩ := exists_of_bind h
    cases h
    have hchain : Closing ts chain.rest :=
      hfirst.trans ((reach_operands hchain).phrase (.inl (by simp [hrest]))).closing
    have hbound : Phrase chain.rest.tail bound.rest :=
      (reach_typeExpr hbound).phrase (.inl question.ne_nil)
    have hquestion := phrase_expect hquestion (by decide) (by decide)
    have hwhenTrue := (reach_typeExpr hwhenTrue).phrase (.inl colon.ne_nil)
    have hcolon := phrase_expect hcolon (by decide) (by decide)
    have hbefore : Closing ts colon.rest :=
      hchain.trans (hextends.trans
        (hbound.trans (hquestion.trans (hwhenTrue.trans hcolon))).closing)
    exact hbefore.reach (reach_typeExpr hwhenFalse)
  · cases h
    exact hfirst.reach (reach_operands hchain)
termination_by 5 * ts.length + 3
decreasing_by all_goals omega

theorem reach_operands {ts : List Token} {read : Taken ts (Option TypeRef)}
    (h : operands ts = .ok read) : Reach ts read.rest := by
  rw [operands] at h
  obtain ⟨⟨type, rest, hshort⟩, hfirst, h⟩ := exists_of_bind h
  cases rest with
  | nil =>
      cases h
      exact reach_postfixType hfirst
  | cons joint after =>
      have hlater : after.length < ts.length := Nat.lt_trans (length_lt_cons joint after) hshort
      dsimp only at h
      split at h
      · rename_i hjoint
        obtain ⟨more, hmore, h⟩ := exists_of_bind h
        cases h
        have hbefore : Closing ts after :=
          ((reach_postfixType hfirst).phrase (.inl (List.cons_ne_nil joint after))).closing.trans
            (.cons (isOpening_of_isJoint hjoint))
        exact hbefore.reach (reach_operands hmore)
      · cases h
        exact reach_postfixType hfirst
termination_by 5 * ts.length + 2

theorem reach_postfixType {ts : List Token} {read : Taken ts TypeRef}
    (h : postfixType ts = .ok read) : Reach ts read.rest := by
  rw [postfixType] at h
  obtain ⟨first, hfirst, h⟩ := exists_of_bind h
  cases h
  exact (reach_primaryType hfirst).andThen (reach_arraySuffixes ts first.value first.rest)
termination_by 5 * ts.length + 1

theorem reach_primaryType {ts : List Token} {read : Taken ts TypeRef}
    (h : primaryType ts = .ok read) : Reach ts read.rest := by
  cases ts with
  | nil =>
      rw [primaryType] at h
      cases h
  | cons token rest =>
      have hshort := length_lt_cons token rest
      have hread := h
      rw [primaryType] at h
      split at h
      case h_1 hkind =>
        obtain ⟨type, htype, h⟩ := exists_of_bind h
        cases h
        have hword : Closing (token :: rest) rest := .cons (by simp [hkind, TokenKind.isOpening])
        exact hword.reach (reach_postfixType htype)
      case h_2 hkind | h_3 hkind | h_4 hkind =>
        cases h
        exact .inl (.one (by simp [hkind, TokenKind.isOpening]) (by simp [hkind]))
      case h_5 hkind =>
        split at h
        · rename_i hnumber
          obtain ⟨number, after, rfl, hliteral⟩ := startsWith_eq_true hnumber
          cases h
          have hminus : Closing (token :: number :: after) (number :: after) :=
            .cons (by simp [hkind, TokenKind.isOpening])
          have hnumber : Phrase (number :: after) after :=
            .one (by simp [hliteral, TokenKind.isOpening]) (by simp [hliteral])
          exact .inl (hminus.phrase hnumber)
        · cases h
      case h_6 hkind | h_7 hkind =>
        cases h
        exact reach_skipTree (by simp [hkind])
      case h_8 hkind =>
        -- a function type with type parameters
        have := length_skipAngles_le 0 (token :: rest)
        obtain ⟨head, hhead, h⟩ := exists_of_bind h
        have := head.shorter
        obtain ⟨result, hresult, h⟩ := exists_of_bind h
        cases h
        have hbefore : Closing (token :: rest) head.rest :=
          (closing_skipAngles (.inl head.ne_nil)).trans (phrase_signatureHead hhead).closing
        exact hbefore.reach (reach_typeExpr hresult)
      case h_9 hkind =>
        split at h
        · -- a function type
          obtain ⟨head, hhead, h⟩ := exists_of_bind h
          have := head.shorter
          obtain ⟨result, hresult, h⟩ := exists_of_bind h
          cases h
          have hbefore := (phrase_signatureHead hhead).closing
          exact hbefore.reach (reach_typeExpr hresult)
        · -- a type in brackets
          obtain ⟨inner, hinner, h⟩ := exists_of_bind h
          have := inner.shorter
          obtain ⟨close, hclose, h⟩ := exists_of_bind h
          cases h
          have hbrackets : Phrase (token :: rest) close.rest :=
            phrase_brackets hkind ((reach_typeExpr hinner).phrase (.inl close.ne_nil)) hclose
          exact .inl hbrackets
      case h_10 hreadonly _ _ _ _ _ _ _ _ =>
        split at h
        · rename_i hword
          exact reach_wordType hword hreadonly hread
        · cases h
termination_by 5 * ts.length
decreasing_by all_goals subst_vars; simp only [List.length_cons] at *; omega

/-- A word is an operator before a type, a type of its own, or a name. -/
theorem reach_wordType {token : Token} {rest : List Token} {read : Taken (token :: rest) TypeRef}
    (hword : token.kind.isWord = true) (hreadonly : token.kind ≠ .keyword .readonly)
    (h : primaryType (token :: rest) = .ok read) : Reach (token :: rest) read.rest := by
  have hfirst : Phrase (token :: rest) rest := phrase_word hword
  rw [primaryType_of_isWord hword hreadonly] at h
  split at h
  · obtain ⟨operand, hoperand, h⟩ := exists_of_bind h
    cases h
    have hoperand : Reach rest operand.rest := reach_postfixType hoperand
    exact hfirst.closing.reach hoperand
  split at h
  · cases h
    exact .inl hfirst
  have hname : Phrase (token :: rest) (dottedTail rest).2 :=
    hfirst.andThen (phrase_dottedTail rest)
  split at h
  · rename_i hless
    have hafter : (dottedTail rest).2.tail.length < rest.length :=
      Nat.lt_of_lt_of_le (length_tail_lt_of_startsWith hless) (length_dottedTail_le rest)
    obtain ⟨less, after, hrest, hkind⟩ := startsWith_eq_true hless
    have hless : Closing (dottedTail rest).2 (dottedTail rest).2.tail := by
      rw [hrest]
      exact .cons (by simp [hkind, TokenKind.isOpening])
    obtain ⟨args, hargs, h⟩ := exists_of_bind h
    cases h
    have hbefore := hname.closing.trans hless
    exact hbefore.reach (reach_typeArgs hargs)
  · cases h
    exact .inl hname
termination_by 5 * rest.length + 4
decreasing_by all_goals omega

theorem reach_typeArgs {ts : List Token} {read : Taken ts (List TypeRef)}
    (h : typeArgs ts = .ok read) : Reach ts read.rest := by
  cases ts with
  | nil =>
      rw [typeArgs] at h
      cases h
  | cons token rest =>
      rw [typeArgs] at h
      split at h
      · rename_i hkind
        cases h
        exact .inl (.one (by simp [hkind, TokenKind.isOpening]) (by simp [hkind]))
      obtain ⟨⟨type, left, hshort⟩, hfirst, h⟩ := exists_of_bind h
      cases left with
      | nil => cases h
      | cons separator after =>
          have hlater := Nat.lt_trans (length_lt_cons separator after) hshort
          have hfirst := (reach_typeExpr hfirst).phrase (.inl (List.cons_ne_nil separator after))
          dsimp only at h
          split at h
          · rename_i hkind
            obtain ⟨more, hmore, h⟩ := exists_of_bind h
            cases h
            have hbefore := hfirst.closing.trans (.cons (by simp [hkind, TokenKind.isOpening]))
            exact hbefore.reach (reach_typeArgs hmore)
          split at h
          · rename_i hkind
            cases h
            have hlast : Phrase (separator :: after) after :=
              .one (by simp [hkind, TokenKind.isOpening]) (by simp [hkind])
            exact .inl (hfirst.trans hlast)
          · cases h
termination_by 5 * ts.length + 4
decreasing_by all_goals subst_vars; simp only [List.length_cons] at *; omega

end

/-- What is read as a type is a phrase, unless the tokens end inside the type. -/
theorem phrase_typeExpr {ts : List Token} {read : Taken ts TypeRef} (h : typeExpr ts = .ok read)
    (hsettled : Settled ts read.rest) : Phrase ts read.rest :=
  (reach_typeExpr h).phrase hsettled

end Specimen.Source
