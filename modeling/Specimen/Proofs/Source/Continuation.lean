import Specimen.Proofs.Source.GroupEnd
import Specimen.Proofs.Source.Respacing

/-!
# Types with more tokens behind them

A type that is read up to a place before the end of a list of tokens is read in the same way when
the list goes on. At the end this would fail: there a group may be cut off, and a type may go on
with the tokens that are added. `Continues` says that one list goes on where the other one ends; a
reader that has come to the same place in both has read the same (`SameRead`). The statements
follow the readers, which call each other. Main statement: `Continues.typeExpr`.
-/

namespace Specimen.Source

/-! ## A list that goes on -/

/-- The same token behind the same gap. It may start somewhere else. -/
structure Token.SameWithGap (token token' : Token) : Prop extends Token.Same token token' where
  gap : token.gap = token'.gap

/-- The same tokens, with `more` behind them in the second list. The first list does not end with a
dot: a dot at the end would be left, but a name could go on behind it. -/
inductive Continues (more : List Token) : List Token → List Token → Prop
  | nil : Continues more [] more
  | cons {token token' : Token} {rest rest' : List Token} (htoken : token.SameWithGap token')
      (hdot : rest = [] → token.kind ≠ .mark .dot) (hrest : Continues more rest rest') :
      Continues more (token :: rest) (token' :: rest')

/-- The last token, if there is one, is the given mark. -/
def EndsIn (mark : Mark) (ts : List Token) : Prop :=
  ∀ token, ts.getLast? = some token → token.kind = .mark mark

theorem EndsIn.of_suffix {mark : Mark} {ts rest : List Token} (h : EndsIn mark ts)
    (hsuffix : rest <:+ ts) : EndsIn mark rest := by
  obtain ⟨front, rfl⟩ := hsuffix
  intro token htoken
  refine h token ?_
  rw [List.getLast?_append, htoken, Option.some_or]

theorem EndsIn.ne_nil {mark : Mark} {token : Token} {rest : List Token}
    (h : EndsIn mark (token :: rest)) (hkind : token.kind ≠ .mark mark) : rest ≠ [] := by
  rintro rfl
  exact hkind (h token rfl)

/-- A list goes on where more tokens are put behind its tokens. -/
theorem continues_of_forall₂ {mark : Mark} {ts ts' : List Token}
    (h : List.Forall₂ Token.SameWithGap ts ts') (hlast : EndsIn mark ts) (hmark : mark ≠ .dot)
    (more : List Token) : Continues more ts (ts' ++ more) := by
  induction h with
  | nil => exact .nil
  | @cons token token' rest rest' htoken hrest ih =>
      refine .cons htoken ?_ (ih (hlast.of_suffix (List.suffix_cons token rest)))
      rintro rfl
      rw [hlast token rfl]
      exact fun hdot => hmark (TokenKind.mark.inj hdot)

/-- The reader succeeds with something that is wanted. -/
inductive Gives {α : Type} (wanted : α → Prop) : Except Fault α → Prop
  | ok {x : α} (h : wanted x) : Gives wanted (.ok x)

theorem Gives.bind {α β : Type} {wanted : α → Prop} {wanted' : β → Prop} {result : Except Fault α}
    {next : α → Except Fault β} (h : Gives wanted result)
    (hnext : ∀ x, wanted x → Gives wanted' (next x)) : Gives wanted' (result >>= next) := by
  cases h with
  | ok h => exact hnext _ h

theorem Gives.map {α β : Type} {wanted : α → Prop} {wanted' : β → Prop} {result : Except Fault α}
    {f : α → β} (h : Gives wanted result) (hf : ∀ x, wanted x → wanted' (f x)) :
    Gives wanted' (result.map f) := by
  cases h with
  | ok h => exact .ok (hf _ h)

/-- The same value, and the same place behind it. -/
structure SameRead {α : Type} (more : List Token) {ts ts' : List Token} (read : Taken ts α)
    (read' : Taken ts' α) : Prop where
  value : read.value = read'.value
  rest : Continues more read.rest read'.rest

namespace Continues

variable {more ts ts' rest rest' : List Token}

theorem eq_cons {token : Token} (h : Continues more (token :: rest) ts') :
    ∃ token' rest', ts' = token' :: rest' ∧ token.SameWithGap token'
    ∧ Continues more rest rest' := by
  cases h with
  | cons htoken _ hrest => exact ⟨_, _, rfl, htoken, hrest⟩

theorem length_eq (h : Continues more ts ts') : ts'.length = ts.length + more.length := by
  induction h with
  | nil => rw [List.length_nil, Nat.zero_add]
  | cons _ _ _ ih =>
      rw [List.length_cons, List.length_cons, ih]
      omega

theorem tail (h : Continues more ts ts') (hts : ts ≠ []) : Continues more ts.tail ts'.tail := by
  cases h with
  | nil => exact absurd rfl hts
  | cons _ _ hrest => exact hrest

theorem startsWith_eq (h : Continues more ts ts') (hts : ts ≠ []) (kind : TokenKind) :
    startsWith kind ts = startsWith kind ts' := by
  cases h with
  | nil => exact absurd rfl hts
  | cons htoken => simp only [startsWith, htoken.kind]

theorem startsWithWord_eq (h : Continues more ts ts') (hts : ts ≠ []) :
    startsWithWord ts = startsWithWord ts' := by
  cases h with
  | nil => exact absurd rfl hts
  | cons htoken => simp only [startsWithWord, htoken.kind]

theorem flatMap_take (h : Continues more ts ts') {count : Nat} (hcount : count ≤ ts.length) :
    ((ts.take count).flatMap fun token => token.gap ++ token.text)
      = (ts'.take count).flatMap fun token => token.gap ++ token.text := by
  induction h generalizing count with
  | nil =>
      obtain rfl := Nat.le_zero.mp hcount
      rfl
  | cons htoken _ _ ih =>
      cases count with
      | zero => rfl
      | succ count =>
          rw [List.take_succ_cons, List.take_succ_cons, List.flatMap_cons, List.flatMap_cons,
            htoken.gap, htoken.text, ih (Nat.le_of_succ_le_succ hcount)]

/-- What is kept between two places is the same text in both lists. -/
theorem spanText_eq (h : Continues more ts ts') (hrest : Continues more rest rest') :
    spanText ts rest = spanText ts' rest' := by
  have hcount : ts'.length - rest'.length = ts.length - rest.length := by
    rw [h.length_eq, hrest.length_eq]
    omega
  rw [spanText_eq_runText, spanText_eq_runText, hcount]
  have hle := Nat.sub_le ts.length rest.length
  generalize ts.length - rest.length = count at hle
  cases h with
  | nil =>
      obtain rfl := Nat.le_zero.mp hle
      rfl
  | cons htoken _ hrest =>
      cases count with
      | zero => rfl
      | succ count =>
          simp only [List.take_succ_cons, runText, htoken.text,
            hrest.flatMap_take (Nat.le_of_succ_le_succ hle)]

/-! ## Passing over tokens -/

theorem closeGroup {depth : Nat} (h : Continues more ts ts') (hends : endsGroup depth ts = true) :
    Continues more (closeGroup depth ts) (closeGroup depth ts') := by
  induction ts generalizing ts' depth with
  | nil => cases hends
  | cons token rest ih =>
      obtain ⟨token', rest', rfl, htoken, hrest⟩ := h.eq_cons
      by_cases hinner : token.kind.depthAfter depth = 0
      · rw [closeGroup_cons_of_eq_zero hinner, closeGroup_cons_of_eq_zero (htoken.kind ▸ hinner)]
        exact hrest
      · rw [closeGroup_cons_of_ne_zero hinner, closeGroup_cons_of_ne_zero (htoken.kind ▸ hinner),
          ← htoken.kind]
        refine ih hrest ?_
        simpa [endsGroup, hinner] using hends

theorem skipTree (h : Continues more ts ts') (hleft : skipTree ts ≠ []) :
    Continues more (skipTree ts) (Source.skipTree ts') :=
  h.closeGroup (endsGroup_of_ne_nil hleft)

theorem skipAngles {depth : Nat} (h : Continues more ts ts') (hleft : skipAngles depth ts ≠ []) :
    Continues more (skipAngles depth ts) (Source.skipAngles depth ts') := by
  fun_induction Source.skipAngles depth ts generalizing ts' with
  | case1 => exact absurd rfl hleft
  | case2 depth token rest hless ih =>
      obtain ⟨token', rest', rfl, htoken, hrest⟩ := h.eq_cons
      rw [Source.skipAngles, if_pos (htoken.kind ▸ hless)]
      exact ih hrest hleft
  | case3 depth token rest hless hgreater hdepth =>
      obtain ⟨token', rest', rfl, htoken, hrest⟩ := h.eq_cons
      rw [Source.skipAngles, if_neg (htoken.kind ▸ hless), if_pos (htoken.kind ▸ hgreater),
        if_pos hdepth]
      exact hrest
  | case4 depth token rest hless hgreater hdepth ih =>
      obtain ⟨token', rest', rfl, htoken, hrest⟩ := h.eq_cons
      rw [Source.skipAngles, if_neg (htoken.kind ▸ hless), if_pos (htoken.kind ▸ hgreater),
        if_neg hdepth]
      exact ih hrest hleft
  | case5 token rest hless hgreater _ =>
      obtain ⟨token', rest', rfl, htoken, hrest⟩ := h.eq_cons
      rw [Source.skipAngles, if_neg (htoken.kind ▸ hless), if_neg (htoken.kind ▸ hgreater),
        if_pos rfl]
      exact h.skipTree hleft
  | case6 depth token rest hless hgreater _ hdepth ih =>
      obtain ⟨token', rest', rfl, htoken, hrest⟩ := h.eq_cons
      rw [Source.skipAngles, if_neg (htoken.kind ▸ hless), if_neg (htoken.kind ▸ hgreater),
        if_neg hdepth]
      have hgroup := ne_nil_of_length_le (length_skipAngles_le depth _) hleft
      exact ih (h.skipTree hgroup) hleft

theorem skipTypeParameters (h : Continues more ts ts') (hleft : skipTypeParameters ts ≠ []) :
    Continues more (skipTypeParameters ts) (Source.skipTypeParameters ts') := by
  cases ts with
  | nil => exact absurd rfl hleft
  | cons token rest =>
      obtain ⟨token', rest', rfl, htoken, hrest⟩ := h.eq_cons
      by_cases hless : token.kind = .mark .less
      · simp only [Source.skipTypeParameters, if_pos hless, ← htoken.kind] at hleft ⊢
        exact h.skipAngles hleft
      · simp only [Source.skipTypeParameters, if_neg hless, ← htoken.kind]
        exact h

theorem dropOptional (h : Continues more ts ts') (hts : ts ≠ []) (kind : TokenKind) :
    Continues more (dropOptional kind ts) (Source.dropOptional kind ts') := by
  cases h with
  | nil => exact absurd rfl hts
  | @cons token token' rest rest' htoken hdot hrest =>
      simp only [Source.dropOptional, ← htoken.kind]
      split
      · exact hrest
      · exact .cons htoken hdot hrest

theorem dropJoint (h : Continues more ts ts') (hts : ts ≠ []) :
    Continues more (dropJoint ts) (Source.dropJoint ts') := by
  cases h with
  | nil => exact absurd rfl hts
  | @cons token token' rest rest' htoken hdot hrest =>
      simp only [Source.dropJoint, ← htoken.kind]
      split
      · exact hrest
      · exact .cons htoken hdot hrest

/-! ## The parts of types -/

theorem expect (h : Continues more ts ts') {kind : TokenKind} {read : Taken ts Unit}
    (hread : expect kind ts = .ok read) : Gives (SameRead more read) (Source.expect kind ts') := by
  obtain ⟨token, rest, rfl, hkind, hrest⟩ := eq_cons_of_expect hread
  obtain ⟨token', rest', rfl, htoken, hafter⟩ := h.eq_cons
  rw [Source.expect, if_pos (htoken.kind ▸ hkind)]
  rw [← hrest] at hafter
  exact .ok ⟨rfl, hafter⟩

theorem expectWord (h : Continues more ts ts') {read : Taken ts String}
    (hread : expectWord ts = .ok read) : Gives (SameRead more read) (Source.expectWord ts') := by
  cases h with
  | nil => cases hread
  | @cons token token' rest rest' htoken hdot hrest =>
      by_cases hword : token.kind.isWord = true
      · rw [Source.expectWord, if_pos hword] at hread
        cases hread
        rw [Source.expectWord, if_pos (htoken.kind ▸ hword), ← htoken.text]
        exact .ok ⟨rfl, hrest⟩
      · rw [Source.expectWord, if_neg hword] at hread
        cases hread

theorem dottedTail (h : Continues more ts ts') (hleft : (dottedTail ts).2 ≠ []) :
    (Source.dottedTail ts).1 = (Source.dottedTail ts').1
      ∧ Continues more (Source.dottedTail ts).2 (Source.dottedTail ts').2 := by
  fun_induction Source.dottedTail ts generalizing ts' with
  | case1 dot word rest hdot name after hname ih =>
      obtain ⟨dot', rest', rfl, hsame, h⟩ := h.eq_cons
      obtain ⟨word', rest', rfl, hsameWord, h⟩ := h.eq_cons
      rw [hsame.kind, hsameWord.kind] at hdot
      rw [hname] at ih
      obtain ⟨hvalue, hrest⟩ := ih h hleft
      rw [Source.dottedTail, if_pos hdot, hsameWord.text]
      exact ⟨congrArg ('.' :: word'.text ++ ·) hvalue, hrest⟩
  | case2 dot word rest hdot =>
      obtain ⟨dot', rest', rfl, hsame, hrest⟩ := h.eq_cons
      obtain ⟨word', rest', rfl, hsameWord, -⟩ := hrest.eq_cons
      rw [hsame.kind, hsameWord.kind] at hdot
      rw [Source.dottedTail, if_neg hdot]
      exact ⟨rfl, h⟩
  | case3 ts hshort =>
      cases h with
      | nil => exact absurd rfl hleft
      | @cons token token' rest rest' htoken hdot hrest =>
          cases rest with
          | nil =>
              have hkind := hdot rfl
              rw [htoken.kind] at hkind
              cases rest' with
              | nil => exact ⟨rfl, .cons htoken hdot hrest⟩
              | cons word after =>
                  rw [Source.dottedTail, if_neg (fun hword => hkind hword.1)]
                  exact ⟨rfl, .cons htoken hdot hrest⟩
          | cons word rest => exact (hshort token word rest rfl).elim

theorem arraySuffixes {start start' : List Token} {type : TypeRef}
    (hstart : Continues more start start') (h : Continues more ts ts')
    (hleft : (arraySuffixes start type ts).2 ≠ []) :
    (Source.arraySuffixes start type ts).1 = (Source.arraySuffixes start' type ts').1
      ∧ Continues more (Source.arraySuffixes start type ts).2
        (Source.arraySuffixes start' type ts').2 := by
  fun_induction Source.arraySuffixes start type ts generalizing ts' with
  | case1 => exact absurd rfl hleft
  | case2 type token rest hopen hclose ih =>
      obtain ⟨token', rest', rfl, htoken, hrest⟩ := h.eq_cons
      have hafter := ne_nil_of_startsWith hclose
      rw [hrest.startsWith_eq hafter] at hclose
      rw [Source.arraySuffixes, if_pos (htoken.kind ▸ hopen), if_pos hclose]
      exact ih (hrest.tail hafter) hleft
  | case3 type token rest hopen hclose hshort after =>
      rename_i ih
      obtain ⟨token', rest', rfl, htoken, hrest⟩ := h.eq_cons
      have hgroup : Source.skipTree (token :: rest) ≠ [] :=
        ne_nil_of_length_le (length_arraySuffixes_le _ _ _) hleft
      have hafter : rest ≠ [] :=
        ne_nil_of_length_le (Nat.le_of_lt_succ hshort) hgroup
      rw [hrest.startsWith_eq hafter] at hclose
      rw [Source.arraySuffixes, if_pos (htoken.kind ▸ hopen), if_neg hclose]
      dsimp only
      rw [← hstart.spanText_eq (h.skipTree hgroup)]
      exact ih (h.skipTree hgroup) hleft
  | case4 type token rest hopen =>
      obtain ⟨token', rest', rfl, htoken, -⟩ := h.eq_cons
      rw [Source.arraySuffixes, if_neg (htoken.kind ▸ hopen)]
      exact ⟨rfl, h⟩

theorem signatureHead (h : Continues more ts ts') {read : Taken ts Unit}
    (hread : signatureHead ts = .ok read) :
    Gives (SameRead more read) (Source.signatureHead ts') := by
  cases ts with
  | nil => cases hread
  | cons token rest =>
      obtain ⟨token', rest', rfl, htoken, -⟩ := h.eq_cons
      by_cases hopen : token.kind = .mark .openParen
      · rw [Source.signatureHead, if_pos hopen] at hread
        obtain ⟨arrow, harrow, rfl⟩ := exists_of_map hread
        rw [Source.signatureHead, if_pos (htoken.kind ▸ hopen)]
        exact ((h.skipTree arrow.ne_nil).expect harrow).map fun _ hsame => ⟨rfl, hsame.rest⟩
      · rw [Source.signatureHead, if_neg hopen] at hread
        cases hread

/-- An arrow follows the group in both lists or in neither, unless the group is cut off. -/
theorem arrowFollowsGroup_eq {token : Token} (h : Continues more (token :: rest) ts')
    (hopen : token.kind.isOpening = true) (hleft : Source.skipTree (token :: rest) ≠ []) :
    arrowFollowsGroup (token :: rest) = arrowFollowsGroup ts' := by
  obtain ⟨token', rest', rfl, htoken, -⟩ := h.eq_cons
  rw [arrowFollowsGroup_opening hopen, arrowFollowsGroup_opening (htoken.kind ▸ hopen)]
  exact (h.skipTree hleft).startsWith_eq hleft _

end Continues

/-- A phrase is not cut off by the end if something follows it. -/
theorem skipTree_ne_nil_of_phrase {ts rest : List Token} (h : Phrase ts rest) (hrest : rest ≠ []) :
    skipTree ts ≠ [] := by
  obtain ⟨front, rfl, hfront⟩ := h
  obtain ⟨last, hlast, -⟩ := hfront.last
  cases front with
  | nil => cases hlast
  | cons token front =>
      rw [skipTree, closeGroup_append (endsGroup_of_depthThrough hfront.closed)]
      exact List.append_ne_nil_of_right_ne_nil _ hrest

/-! ## The readers of types

The lengths that are noted between two readers show that the readers end, as in their definitions.
-/

mutual

theorem Continues.typeExpr {more ts ts' : List Token} {read : Taken ts TypeRef}
    (h : Continues more ts ts') (hread : typeExpr ts = .ok read) (hleft : read.rest ≠ []) :
    Gives (SameRead more read) (typeExpr ts') := by
  have hts := ne_nil_of_length_le (Nat.le_of_lt read.shorter) hleft
  rw [Source.typeExpr] at hread ⊢
  have hle := length_dropJoint_le ts
  obtain ⟨chain, hchain, hread⟩ := exists_of_bind hread
  have := chain.shorter
  have hafter : chain.rest ≠ [] := by
    split at hread
    · rename_i hextends
      exact ne_nil_of_startsWith hextends
    · cases hread
      exact hleft
  refine ((h.dropJoint hts).operands hchain hafter).bind fun chain' hchain' => ?_
  rw [← hchain'.rest.startsWith_eq hafter]
  revert hread
  split
  · intro hread
    have := length_tail_le chain.rest
    obtain ⟨bound, hbound, hread⟩ := exists_of_bind hread
    have := bound.shorter
    obtain ⟨question, hquestion, hread⟩ := exists_of_bind hread
    have := question.shorter
    obtain ⟨whenTrue, hwhenTrue, hread⟩ := exists_of_bind hread
    have := whenTrue.shorter
    obtain ⟨colon, hcolon, hread⟩ := exists_of_bind hread
    have := colon.shorter
    obtain ⟨whenFalse, hwhenFalse, hread⟩ := exists_of_bind hread
    cases hread
    refine
      ((hchain'.rest.tail hafter).typeExpr hbound question.ne_nil).bind fun bound' hbound' => ?_
    refine (hbound'.rest.expect hquestion).bind fun question' hquestion' => ?_
    refine (hquestion'.rest.typeExpr hwhenTrue colon.ne_nil).bind fun whenTrue' hwhenTrue' => ?_
    refine (hwhenTrue'.rest.expect hcolon).bind fun colon' hcolon' => ?_
    refine (hcolon'.rest.typeExpr hwhenFalse hleft).bind fun whenFalse' hwhenFalse' => ?_
    exact .ok ⟨congrArg _ (h.spanText_eq hwhenFalse'.rest), hwhenFalse'.rest⟩
  · intro hread
    cases hread
    refine .ok ⟨?_, hchain'.rest⟩
    simp only [hchain'.value, h.spanText_eq hchain'.rest]
termination_by 5 * ts.length + 3
decreasing_by all_goals omega

theorem Continues.operands {more ts ts' : List Token} {read : Taken ts (Option TypeRef)}
    (h : Continues more ts ts') (hread : operands ts = .ok read) (hleft : read.rest ≠ []) :
    Gives (SameRead more read) (operands ts') := by
  rw [Source.operands] at hread ⊢
  obtain ⟨⟨type, rest, hshort⟩, hfirst, hread⟩ := exists_of_bind hread
  cases rest with
  | nil =>
      cases hread
      exact absurd rfl hleft
  | cons joint after =>
      have hlater : after.length < ts.length := Nat.lt_trans (length_lt_cons joint after) hshort
      refine (h.postfixType hfirst (List.cons_ne_nil joint after)).bind fun first' hfirst' => ?_
      obtain ⟨type', rest', hshort'⟩ := first'
      obtain ⟨htype, hrest⟩ := hfirst'
      obtain ⟨joint', after', rfl, hjoint, hafter⟩ := hrest.eq_cons
      simp only [← hjoint.kind]
      dsimp only at hread
      revert hread
      split
      · intro hread
        obtain ⟨more', hmore, hread⟩ := exists_of_bind hread
        cases hread
        exact (hafter.operands hmore hleft).bind fun _ hsame => .ok ⟨rfl, hsame.rest⟩
      · intro hread
        cases hread
        exact .ok ⟨congrArg some htype, hrest⟩
termination_by 5 * ts.length + 2

theorem Continues.postfixType {more ts ts' : List Token} {read : Taken ts TypeRef}
    (h : Continues more ts ts') (hread : postfixType ts = .ok read) (hleft : read.rest ≠ []) :
    Gives (SameRead more read) (postfixType ts') := by
  rw [Source.postfixType] at hread ⊢
  obtain ⟨first, hfirst, hread⟩ := exists_of_bind hread
  cases hread
  have hafter := ne_nil_of_length_le (length_arraySuffixes_le ts first.value first.rest) hleft
  refine (h.primaryType hfirst hafter).bind fun first' hfirst' => ?_
  obtain ⟨type', rest', hshort'⟩ := first'
  obtain ⟨htype, hrest⟩ := hfirst'
  obtain rfl : first.value = type' := htype
  have hsuffixed := h.arraySuffixes hrest hleft
  exact .ok ⟨hsuffixed.1, hsuffixed.2⟩
termination_by 5 * ts.length + 1

theorem Continues.primaryType {more ts ts' : List Token} {read : Taken ts TypeRef}
    (h : Continues more ts ts') (hread : primaryType ts = .ok read) (hleft : read.rest ≠ []) :
    Gives (SameRead more read) (primaryType ts') := by
  cases ts with
  | nil => exact absurd rfl read.ne_nil
  | cons token rest =>
      obtain ⟨token', rest', rfl, htoken, hrest⟩ := h.eq_cons
      have hafter : rest ≠ [] :=
        ne_nil_of_length_le (Nat.le_of_lt_succ read.shorter) hleft
      by_cases hword : token.kind.isWord = true ∧ token.kind ≠ .keyword .readonly
      · exact h.wordType htoken hrest hword.1 hword.2 hread hleft
      rw [Source.primaryType] at hread ⊢
      rw [← htoken.kind, ← htoken.text]
      -- both readers look at one kind now, and one split serves both
      generalize hkind : token.kind = kind at hread ⊢
      revert hread
      split <;> intro hread
      case h_1 =>
        obtain ⟨type, htype, hread⟩ := exists_of_bind hread
        cases hread
        exact (hrest.postfixType htype hleft).bind fun _ hsame => .ok ⟨hsame.value, hsame.rest⟩
      case h_2 | h_3 | h_4 =>
        cases hread
        exact .ok ⟨congrArg _ (h.spanText_eq hrest), hrest⟩
      case h_5 =>
        rw [← hrest.startsWith_eq hafter]
        revert hread
        split <;> intro hread
        · cases hread
          exact .ok ⟨congrArg _ (h.spanText_eq (hrest.tail hafter)), hrest.tail hafter⟩
        · cases hread
      case h_6 | h_7 =>
        cases hread
        exact .ok ⟨congrArg _ (h.spanText_eq (h.skipTree hleft)), h.skipTree hleft⟩
      case h_8 =>
        -- a function type with type parameters
        have := length_skipAngles_le 0 (token :: rest)
        obtain ⟨head, hhead, hread⟩ := exists_of_bind hread
        have := head.shorter
        obtain ⟨result, hresult, hread⟩ := exists_of_bind hread
        cases hread
        refine ((h.skipAngles head.ne_nil).signatureHead hhead).bind fun head' hhead' => ?_
        refine (hhead'.rest.typeExpr hresult hleft).bind fun result' hresult' => ?_
        exact .ok ⟨congrArg _ (h.spanText_eq hresult'.rest), hresult'.rest⟩
      case h_9 =>
        have hopen : token.kind.isOpening = true := by simp [hkind, TokenKind.isOpening]
        split at hread
        · -- a function type
          rename_i harrow
          have hgroup : Source.skipTree (token :: rest) ≠ [] :=
            ne_nil_of_startsWith (arrowFollowsGroup_opening hopen rest ▸ harrow)
          obtain ⟨head, hhead, hread⟩ := exists_of_bind hread
          have := head.shorter
          obtain ⟨result, hresult, hread⟩ := exists_of_bind hread
          cases hread
          rw [← h.arrowFollowsGroup_eq hopen hgroup, if_pos harrow]
          refine (h.signatureHead hhead).bind fun head' hhead' => ?_
          refine (hhead'.rest.typeExpr hresult hleft).bind fun result' hresult' => ?_
          exact .ok ⟨congrArg _ (h.spanText_eq hresult'.rest), hresult'.rest⟩
        · -- a type in brackets
          rename_i harrow
          obtain ⟨inner, hinner, hread⟩ := exists_of_bind hread
          have := inner.shorter
          obtain ⟨close, hclose, hread⟩ := exists_of_bind hread
          cases hread
          have hphrase : Phrase (token :: rest) close.rest :=
            phrase_brackets hkind (phrase_typeExpr hinner (.inl close.ne_nil)) hclose
          have hgroup := skipTree_ne_nil_of_phrase hphrase hleft
          rw [← h.arrowFollowsGroup_eq hopen hgroup, if_neg harrow]
          refine (hrest.typeExpr hinner close.ne_nil).bind fun inner' hinner' => ?_
          refine (hinner'.rest.expect hclose).bind fun close' hclose' => ?_
          exact .ok ⟨hinner'.value, hclose'.rest⟩
      case h_10 hreadonly _ _ _ _ _ _ _ _ =>
        subst hkind
        split at hread
        · rename_i hisWord
          exact absurd ⟨hisWord, hreadonly⟩ hword
        · cases hread
termination_by 5 * ts.length
decreasing_by all_goals subst_vars; simp only [List.length_cons] at *; omega

/-- A word is an operator before a type, a type of its own, or a name. -/
theorem Continues.wordType {more : List Token} {token token' : Token} {rest rest' : List Token}
    {read : Taken (token :: rest) TypeRef} (h : Continues more (token :: rest) (token' :: rest'))
    (htoken : token.SameWithGap token') (hrest : Continues more rest rest')
    (hword : token.kind.isWord = true) (hreadonly : token.kind ≠ .keyword .readonly)
    (hread : Source.primaryType (token :: rest) = .ok read) (hleft : read.rest ≠ []) :
    Gives (SameRead more read) (Source.primaryType (token' :: rest')) := by
  have hafter : rest ≠ [] := ne_nil_of_length_le (Nat.le_of_lt_succ read.shorter) hleft
  rw [primaryType_of_isWord hword hreadonly] at hread
  rw [primaryType_of_isWord (htoken.kind ▸ hword) (htoken.kind ▸ hreadonly), ← htoken.text,
    ← hrest.startsWithWord_eq hafter]
  revert hread
  split
  · intro hread
    obtain ⟨operand, hoperand, hread⟩ := exists_of_bind hread
    cases hread
    refine (hrest.postfixType hoperand hleft).bind fun operand' hoperand' => ?_
    exact .ok ⟨congrArg _ (h.spanText_eq hoperand'.rest), hoperand'.rest⟩
  split
  · intro hread
    cases hread
    exact .ok ⟨rfl, hrest⟩
  intro hread
  have hname : (Source.dottedTail rest).2 ≠ [] := by
    split at hread
    · rename_i hless
      exact ne_nil_of_startsWith hless
    · cases hread
      exact hleft
  obtain ⟨hvalue, hlater⟩ := hrest.dottedTail hname
  rw [← hvalue, ← hlater.startsWith_eq hname]
  revert hread
  split <;> intro hread
  · rename_i hless
    have hshort : (Source.dottedTail rest).2.tail.length < rest.length :=
      Nat.lt_of_lt_of_le (length_tail_lt_of_startsWith hless) (length_dottedTail_le rest)
    obtain ⟨args, hargs, hread⟩ := exists_of_bind hread
    cases hread
    refine ((hlater.tail hname).typeArgs hargs hleft).bind fun args' hargs' => ?_
    exact .ok ⟨congrArg _ hargs'.value, hargs'.rest⟩
  · cases hread
    exact .ok ⟨rfl, hlater⟩
termination_by 5 * rest.length + 4
decreasing_by all_goals omega

theorem Continues.typeArgs {more ts ts' : List Token} {read : Taken ts (List TypeRef)}
    (h : Continues more ts ts') (hread : typeArgs ts = .ok read) (hleft : read.rest ≠ []) :
    Gives (SameRead more read) (typeArgs ts') := by
  cases ts with
  | nil => exact absurd rfl read.ne_nil
  | cons token rest =>
      obtain ⟨token', rest', rfl, htoken, hrest⟩ := h.eq_cons
      rw [Source.typeArgs] at hread ⊢
      rw [← htoken.kind]
      revert hread
      split
      · intro hread
        cases hread
        exact .ok ⟨rfl, hrest⟩
      intro hread
      obtain ⟨⟨type, left, hshort⟩, hfirst, hread⟩ := exists_of_bind hread
      cases left with
      | nil => cases hread
      | cons separator after =>
          have hlater := Nat.lt_trans (length_lt_cons separator after) hshort
          refine
            (h.typeExpr hfirst (List.cons_ne_nil separator after)).bind fun first' hfirst' => ?_
          obtain ⟨type', left', hshort'⟩ := first'
          obtain ⟨htype, hrest⟩ := hfirst'
          obtain ⟨separator', after', rfl, hseparator, hafter⟩ := hrest.eq_cons
          simp only [← hseparator.kind]
          dsimp only at hread htype
          revert hread
          split
          · intro hread
            obtain ⟨others, hothers, hread⟩ := exists_of_bind hread
            cases hread
            exact (hafter.typeArgs hothers hleft).bind fun _ hsame =>
              .ok ⟨congrArg₂ List.cons htype hsame.value, hsame.rest⟩
          split
          · intro hread
            cases hread
            exact .ok ⟨congrArg (fun type => [type]) htype, hafter⟩
          · exact nofun
termination_by 5 * ts.length + 4
decreasing_by all_goals subst_vars; simp only [List.length_cons] at *; omega

end

end Specimen.Source
