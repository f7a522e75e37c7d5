import Mathlib.Data.List.Forall2
import Specimen.Source.Document

/-!
# Tokens with other gaps

Two documents may have the same tokens with other blanks and comments between them. A `Pair` holds
the tokens of two such documents, and `Pair.Beside` says that two readers have come to the same
place in them: the tokens left have the same kinds, the same texts and line breaks at the same
places.

A text that is kept from the source is the text of a run of tokens. `Pair.SameRun` says that two
texts belong to the same run, so they differ in the gaps inside it only.
-/

namespace Specimen.Source

/-- The tokens have the same kind and the same text. -/
structure Token.Same (token token' : Token) : Prop where
  kind : token.kind = token'.kind
  text : token.text = token'.text

/-- The same token, with a line break before it in both documents or in neither. -/
structure Token.SameInLine (token token' : Token) : Prop extends Token.Same token token' where
  lineBreak : hasLineBreak token.gap = hasLineBreak token'.gap

/-- The text of a run of tokens: the tokens with the gaps between them, without white space at the
ends. -/
def runText : List Token → String
  | [] => ""
  | first :: others =>
      String.ofList (trim (first.text ++ others.flatMap fun token => token.gap ++ token.text))

theorem spanText_eq_runText (ts rest : List Token) :
    spanText ts rest = runText (ts.take (ts.length - rest.length)) := rfl

/-- The tokens of two documents. -/
structure Pair where
  left : List Token
  right : List Token

namespace Pair

variable {pair : Pair} {ts ts' : List Token} {α α' β β' : Type}

/-- The same place in both documents, behind the first token. -/
structure Beside (pair : Pair) (ts ts' : List Token) : Prop where
  left : ts <:+ pair.left
  right : ts' <:+ pair.right
  same : List.Forall₂ Token.SameInLine ts ts'

/-- The texts of the same run of tokens, one in each document. -/
def SameRun (pair : Pair) (text text' : String) : Prop :=
  ∃ ts ts' count, pair.Beside ts ts' ∧ text = runText (ts.take count)
    ∧ text' = runText (ts'.take count)

namespace Beside

theorem eq_nil (h : pair.Beside [] ts') : ts' = [] :=
  List.forall₂_nil_left_iff.mp h.same

theorem eq_cons {token : Token} {rest : List Token} (h : pair.Beside (token :: rest) ts') :
    ∃ token' rest', ts' = token' :: rest' ∧ token.SameInLine token' ∧ pair.Beside rest rest' := by
  obtain ⟨hleft, hright, hsame⟩ := h
  cases hsame with
  | cons htoken hrest =>
      refine ⟨_, _, rfl, htoken, ?_⟩
      exact ⟨(List.suffix_cons _ _).trans hleft, (List.suffix_cons _ _).trans hright, hrest⟩

/-- Either both documents end at the place, or the same token stands there. -/
@[cases_eliminator]
theorem elim {motive : (ts ts' : List Token) → pair.Beside ts ts' → Prop}
    (nil : ∀ h, motive [] [] h)
    (cons : ∀ {token token' : Token} {rest rest' : List Token} (h), token.SameInLine token' →
      pair.Beside rest rest' → motive (token :: rest) (token' :: rest') h)
    (h : pair.Beside ts ts') : motive ts ts' h := by
  match ts, h with
  | [], h =>
      obtain rfl := h.eq_nil
      exact nil h
  | token :: rest, h =>
      obtain ⟨token', rest', rfl, htoken, hrest⟩ := h.eq_cons
      exact cons h htoken hrest

theorem tail (h : pair.Beside ts ts') : pair.Beside ts.tail ts'.tail := by
  cases h with
  | nil h => exact h
  | cons _ _ hrest => exact hrest

theorem startsWith_eq (h : pair.Beside ts ts') (kind : TokenKind) :
    startsWith kind ts = startsWith kind ts' := by
  cases h with
  | nil => rfl
  | cons _ htoken => simp only [startsWith, htoken.kind]

theorem startsWithWord_eq (h : pair.Beside ts ts') : startsWithWord ts = startsWithWord ts' := by
  cases h with
  | nil => rfl
  | cons _ htoken => simp only [startsWithWord, htoken.kind]

/-- What is kept between two places is the same run in both documents. -/
theorem spanText (h : pair.Beside ts ts') {rest rest' : List Token}
    (hrest : pair.Beside rest rest') : pair.SameRun (spanText ts rest) (spanText ts' rest') := by
  have hcount : ts'.length - rest'.length = ts.length - rest.length := by
    rw [h.same.length_eq, hrest.same.length_eq]
  refine ⟨ts, ts', ts.length - rest.length, h, spanText_eq_runText ts rest, ?_⟩
  rw [spanText_eq_runText, hcount]

/-! ### Passing over tokens -/

theorem closeGroup (h : pair.Beside ts ts') (depth : Nat) :
    pair.Beside (closeGroup depth ts) (closeGroup depth ts') := by
  induction ts generalizing ts' depth with
  | nil => rwa [h.eq_nil] at *
  | cons token rest ih =>
      obtain ⟨token', rest', rfl, htoken, hrest⟩ := h.eq_cons
      simp only [Source.closeGroup, htoken.kind]
      split
      · exact hrest
      · exact ih hrest _

theorem skipTree (h : pair.Beside ts ts') : pair.Beside (skipTree ts) (skipTree ts') :=
  h.closeGroup 0

theorem skipAngles (h : pair.Beside ts ts') (depth : Nat) :
    pair.Beside (skipAngles depth ts) (skipAngles depth ts') := by
  fun_induction Source.skipAngles depth ts generalizing ts' with
  | case1 depth => rwa [h.eq_nil, Source.skipAngles] at *
  | case2 depth token rest hless ih =>
      obtain ⟨token', rest', rfl, htoken, hrest⟩ := h.eq_cons
      rw [Source.skipAngles, if_pos (htoken.kind ▸ hless)]
      exact ih hrest
  | case3 depth token rest hless hgreater hdepth =>
      obtain ⟨token', rest', rfl, htoken, hrest⟩ := h.eq_cons
      rw [Source.skipAngles, if_neg (htoken.kind ▸ hless), if_pos (htoken.kind ▸ hgreater),
        if_pos hdepth]
      exact hrest
  | case4 depth token rest hless hgreater hdepth ih =>
      obtain ⟨token', rest', rfl, htoken, hrest⟩ := h.eq_cons
      rw [Source.skipAngles, if_neg (htoken.kind ▸ hless), if_pos (htoken.kind ▸ hgreater),
        if_neg hdepth]
      exact ih hrest
  | case5 token rest hless hgreater _ =>
      obtain ⟨token', rest', rfl, htoken, hrest⟩ := h.eq_cons
      rw [Source.skipAngles, if_neg (htoken.kind ▸ hless), if_neg (htoken.kind ▸ hgreater),
        if_pos rfl]
      exact h.skipTree
  | case6 depth token rest hless hgreater _ hdepth ih =>
      obtain ⟨token', rest', rfl, htoken, hrest⟩ := h.eq_cons
      rw [Source.skipAngles, if_neg (htoken.kind ▸ hless), if_neg (htoken.kind ▸ hgreater),
        if_neg hdepth]
      exact ih h.skipTree

theorem skipTypeParameters (h : pair.Beside ts ts') :
    pair.Beside (skipTypeParameters ts) (skipTypeParameters ts') := by
  cases h with
  | nil h => exact h
  | cons h htoken _ =>
      simp only [Source.skipTypeParameters, htoken.kind]
      split
      · exact h.skipAngles 0
      · exact h

theorem skipMember (h : pair.Beside ts ts') : pair.Beside (skipMember ts) (skipMember ts') := by
  fun_induction Source.skipMember ts generalizing ts' with
  | case1 => rwa [h.eq_nil, Source.skipMember] at *
  | case2 token rest hseparator =>
      obtain ⟨token', rest', rfl, htoken, hrest⟩ := h.eq_cons
      rw [Source.skipMember, if_pos (htoken.kind ▸ hseparator)]
      exact hrest
  | case3 token rest hseparator hbrace =>
      obtain ⟨token', rest', rfl, htoken, hrest⟩ := h.eq_cons
      rw [Source.skipMember, if_neg (htoken.kind ▸ hseparator), if_pos (htoken.kind ▸ hbrace)]
      exact h
  | case4 token rest hseparator hbrace _ ih =>
      obtain ⟨token', rest', rfl, htoken, hrest⟩ := h.eq_cons
      rw [Source.skipMember, if_neg (htoken.kind ▸ hseparator), if_neg (htoken.kind ▸ hbrace)]
      exact ih h.skipTree

theorem dropOptional (h : pair.Beside ts ts') (kind : TokenKind) :
    pair.Beside (dropOptional kind ts) (dropOptional kind ts') := by
  cases h with
  | nil h => exact h
  | cons h htoken hrest =>
      simp only [Source.dropOptional, htoken.kind]
      split
      · exact hrest
      · exact h

end Beside

/-! ## Results of readers -/

/-- Both readers succeed with related results, or both fail for the same cause at the same place. -/
inductive SameResult (pair : Pair) (related : α → α' → Prop) :
    Except Fault α → Except Fault α' → Prop
  | ok {x : α} {x' : α'} (h : related x x') : SameResult pair related (.ok x) (.ok x')
  | error {cause : FaultCause} {ts ts' : List Token} (h : pair.Beside ts ts') :
      SameResult pair related (.error ⟨cause, ts⟩) (.error ⟨cause, ts'⟩)

/-- The values are related, and what is left is the same place. -/
structure SameTaken (pair : Pair) (related : α → α' → Prop) (t : Taken ts α) (t' : Taken ts' α') :
    Prop where
  value : related t.value t'.value
  rest : pair.Beside t.rest t'.rest

section Results

variable {related : α → α' → Prop} {related' : β → β' → Prop} {result : Except Fault α}
  {result' : Except Fault α'}

theorem SameResult.bind {next : α → Except Fault β} {next' : α' → Except Fault β'}
    (h : pair.SameResult related result result')
    (hnext : ∀ x x', related x x' → pair.SameResult related' (next x) (next' x')) :
    pair.SameResult related' (result >>= next) (result' >>= next') := by
  cases h with
  | ok h => exact hnext _ _ h
  | error h => exact .error h

theorem SameResult.map {f : α → β} {f' : α' → β'} (h : pair.SameResult related result result')
    (hf : ∀ x x', related x x' → related' (f x) (f' x')) :
    pair.SameResult related' (result.map f) (result'.map f') := by
  cases h with
  | ok h => exact .ok (hf _ _ h)
  | error h => exact .error h

theorem SameResult.ite {c c' : Prop} [Decidable c] [Decidable c'] {other : Except Fault α}
    {other' : Except Fault α'} (hc : c ↔ c') (h : pair.SameResult related result result')
    (hother : pair.SameResult related other other') :
    pair.SameResult related (if c then result else other) (if c' then result' else other') := by
  simp only [hc]
  split
  · exact h
  · exact hother

theorem Beside.refuse (h : pair.Beside ts ts') (wanted : Wanted) :
    pair.SameResult related (refuse wanted ts) (refuse wanted ts') :=
  .error h

theorem Beside.expect (h : pair.Beside ts ts') (kind : TokenKind) :
    pair.SameResult (pair.SameTaken Eq) (expect kind ts) (expect kind ts') := by
  cases h with
  | nil h => exact h.refuse _
  | cons h htoken hrest =>
      simp only [Source.expect, htoken.kind]
      split
      · exact .ok ⟨rfl, hrest⟩
      · exact h.refuse _

theorem Beside.expectWord (h : pair.Beside ts ts') :
    pair.SameResult (pair.SameTaken Eq) (expectWord ts) (expectWord ts') := by
  cases h with
  | nil h => exact h.refuse _
  | cons h htoken hrest =>
      simp only [Source.expectWord, htoken.kind, htoken.text]
      split
      · exact .ok ⟨rfl, hrest⟩
      · exact h.refuse _

end Results

end Pair

end Specimen.Source
