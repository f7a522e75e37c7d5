import Specimen.Proofs.Source.Tokenization

/-!
# Tokens and gaps tile a document

Tokens stand one behind the other, at their offsets, and between them stand gaps. A gap is made up
of blanks, of comments that end with their line, and of block comments that end at their first end
(`Gap`). Main statement: `tiling_ofText`.
-/

namespace Specimen.Source

open Pattern

/-- A text before another one is made up of blanks, of comments up to the end of their lines, and of
block comments up to their first ends. -/
inductive Gap : (text after : List Char) → Prop
  | nil {after : List Char} : Gap [] after
  | blank {c : Char} {rest after : List Char} (hc : Pattern.isBlank c = true)
      (hrest : Gap rest after) : Gap (c :: rest) after
  | lineComment {body rest after : List Char} (hbody : '\n' ∉ body)
      (hend : ∀ c ∈ (rest ++ after).head?, c = '\n') (hrest : Gap rest after) :
      Gap ('/' :: '/' :: (body ++ rest)) after
  | blockComment {body rest after : List Char} (hend : EndsFirst body) (hrest : Gap rest after) :
      Gap ('/' :: '*' :: (body ++ '*' :: '/' :: rest)) after

/-- The offset behind the last of some tokens. -/
def stopOf (tokens : List Token) : Nat :=
  (tokens.getLast?.map Token.stop).getD 0

/-- The offset is the start or the end of a token, or the end of the document. -/
def IsBound (text : List Char) (document : Tokens) (offset : Nat) : Prop :=
  offset = byteSize text
    ∨ ∃ token ∈ document.tokens, offset = token.start ∨ offset = token.stop

/-- The tokens and gaps cover a text, each part of it once. -/
structure Tiling (text : List Char) (document : Tokens) : Prop where
  complete : document.text = text
  nonempty : ∀ token ∈ document.tokens, token.start < token.stop
  ascending : document.tokens.Pairwise fun earlier later => earlier.stop ≤ later.start
  inside : ∀ token ∈ document.tokens, token.stop ≤ byteSize text
  covered : ∀ token ∈ document.tokens, slice? token.start token.stop text = some token.text
  between : ∀ before token after, document.tokens = before ++ token :: after →
    slice? (stopOf before) token.start text = some token.gap
      ∧ Gap token.gap (token.text ++ Tokens.text ⟨after, document.tail⟩)
  behind : slice? (stopOf document.tokens) (byteSize text) text = some document.tail
    ∧ Gap document.tail []
  sliceable : ∀ start stop, IsBound text document start → IsBound text document stop →
    start ≤ stop → (slice? start stop text).isSome

/-! ## Gaps -/

theorem Gap.append {text more after : List Char} (h : Gap text (more ++ after))
    (hmore : Gap more after) : Gap (text ++ more) after := by
  generalize hbehind : more ++ after = behind at h
  induction h with
  | nil => exact hmore
  | blank hc _ ih => exact .blank hc (ih hbehind)
  | lineComment hbody hend _ ih =>
      subst hbehind
      rw [List.cons_append, List.cons_append, List.append_assoc]
      refine .lineComment hbody ?_ (ih rfl)
      rwa [List.append_assoc]
  | blockComment hend _ ih =>
      rw [List.cons_append, List.cons_append, List.append_assoc, List.cons_append, List.cons_append]
      exact .blockComment hend (ih hbehind)

theorem gap_of_blanks {text : List Char} (h : ∀ c ∈ text, Pattern.isBlank c = true)
    (after : List Char) : Gap text after := by
  induction text with
  | nil => exact .nil
  | cons c text ih =>
      exact .blank (h c List.mem_cons_self) (ih fun d hd => h d (List.mem_cons_of_mem c hd))

theorem fits_append_iff {p : Pattern} {text rest : List Char} :
    Fits p (text ++ rest) text.length ↔ Matches p text := by
  simp [Fits]

theorem matches_lineComment_iff {text : List Char} :
    Matches lineComment text ↔ ∃ body, text = '/' :: '/' :: body ∧ '\n' ∉ body := by
  rw [lineComment, matches_seq_iff]
  constructor
  · rintro ⟨start, body, rfl, hstart, hbody⟩
    obtain rfl := matches_literal_iff.mp hstart
    have hwithin : (Pattern.many (noneOf ['\n'])).Within (· != '\n') := fun c hc => by
      simpa using hc
    exact ⟨body, rfl, fun hmem => absurd (hwithin.all_of_matches hbody _ hmem) (by decide)⟩
  · rintro ⟨body, rfl, hbody⟩
    refine ⟨['/', '/'], body, rfl, matches_literal_iff.mpr rfl, matches_many_one ?_⟩
    intro c hc
    simp only [List.contains_cons, List.contains_nil, Bool.or_false, Bool.not_eq_true',
      beq_eq_false_iff_ne]
    rintro rfl
    exact hbody hc

theorem mem_rules_of_blank {p : Pattern} (h : (Piece.blank, p) ∈ rules) :
    p = blanks ∨ p = lineComment := by
  have hall : ∀ rule ∈ rules, rule.1 = Piece.blank → rule.2 = blanks ∨ rule.2 = lineComment := by
    rw [forall_mem_rules]
    simp
  exact hall _ h rfl

/-- Blanks and comments up to the end of a line, as long as they can be, are a gap. -/
theorem IsLongest.gap {text rest : List Char} (h : IsLongest (text ++ rest) .blank text.length) :
    Gap text rest := by
  obtain ⟨p, hrule, hfits⟩ := h.fits
  have hmatch := fits_append_iff.mp hfits
  rcases mem_rules_of_blank hrule with rfl | rfl
  · have hwithin : blanks.Within Pattern.isBlank := ⟨fun _ => id, fun _ => id⟩
    exact gap_of_blanks (hwithin.all_of_matches hmatch) rest
  · obtain ⟨body, rfl, hbody⟩ := matches_lineComment_iff.mp hmatch
    have hend : ∀ c ∈ rest.head?, c = '\n' := by
      intro c hc
      cases rest with
      | nil => cases hc
      | cons d rest =>
          cases hc
          -- otherwise the comment would go on
          apply Decidable.of_not_not
          intro hother
          have hlonger : Matches lineComment ('/' :: '/' :: (body ++ [c])) := by
            refine matches_lineComment_iff.mpr ⟨body ++ [c], rfl, ?_⟩
            simp [hbody, Ne.symm hother]
          have hfits : Fits lineComment (('/' :: '/' :: (body ++ [c])) ++ rest)
              ('/' :: '/' :: (body ++ [c])).length := fits_append_iff.mpr hlonger
          have hle := h.longest _ hrule _ (by simpa using hfits)
          have hlength : ('/' :: '/' :: (body ++ [c])).length = body.length + 3 := by simp
          have hlength' : ('/' :: '/' :: body).length = body.length + 2 := by simp
          omega
    have hgap : Gap ('/' :: '/' :: (body ++ [])) rest := .lineComment hbody hend .nil
    rwa [List.append_nil] at hgap

theorem start_of_isLongest {input start : List Char}
    (h : IsLongest (start ++ input) .openComment start.length) : start = ['/', '*'] := by
  obtain ⟨p, hrule, hfits⟩ := h.fits
  have hp : p = literal ['/', '*'] := eq_literal_of_fixedText? hrule rfl
  rw [hp, fits_append_iff, matches_literal_iff] at hfits
  exact hfits

/-- A piece that is no token is a gap. -/
theorem IsPiece.gap {text rest : List Char} (h : IsPiece (text ++ rest) none text.length) :
    Gap text rest := by
  generalize hlength : text.length = length at h
  cases h with
  | blank h => exact (hlength ▸ h).gap
  | @comment start body after h hinput hend =>
      have hsplit : text ++ rest = (start ++ (body ++ ['*', '/'])) ++ after := by simp [hinput]
      obtain ⟨rfl, rfl⟩ := List.append_inj hsplit (by simp [hlength])
      rw [List.append_assoc] at h
      obtain rfl := start_of_isLongest h
      have hgap : Gap ('/' :: '*' :: (body ++ '*' :: '/' :: [])) rest := .blockComment hend .nil
      exact hgap

/-! ## Places -/

/-- The tokens stand one behind the other from an offset on, each behind its gap. -/
def Placed : (offset : Nat) → List Token → Prop
  | _, [] => True
  | offset, token :: rest =>
      token.start = offset + byteSize token.gap ∧ token.text ≠ [] ∧ Placed token.stop rest

/-- Every gap is a gap before what follows it. -/
def Separated (tail : List Char) : List Token → Prop
  | [] => Gap tail []
  | token :: rest => Gap token.gap (token.text ++ Tokens.text ⟨rest, tail⟩) ∧ Separated tail rest

/-- The gap and the text of a token. -/
def Token.spelled (token : Token) : List Char :=
  token.gap ++ token.text

theorem Munched.placed {offset : Nat} {gap input : List Char} {document : Tokens}
    (h : Munched offset gap input document) {start : Nat}
    (hoffset : offset = start + byteSize gap) : Placed start document.tokens := by
  induction h generalizing start with
  | done => trivial
  | gap _ _ ih =>
      apply ih
      rw [hoffset, byteSize_append, Nat.add_assoc]
  | @token offset gap text rest kind later hpiece _ ih =>
      refine ⟨hoffset, ?_, ih rfl⟩
      rintro rfl
      exact absurd hpiece.pos (Nat.lt_irrefl 0)

theorem Munched.text_eq {offset : Nat} {gap input : List Char} {document : Tokens}
    (h : Munched offset gap input document) : document.text = gap ++ input := by
  rw [h.eq_scan, text_scan]

theorem Munched.separated {offset : Nat} {gap input : List Char} {document : Tokens}
    (h : Munched offset gap input document) (hgap : Gap gap input) :
    Separated document.tail document.tokens := by
  induction h with
  | done => exact hgap
  | gap hpiece _ ih => exact ih (hgap.append hpiece.gap)
  | token _ hlater ih =>
      refine ⟨?_, ih .nil⟩
      have htext := hlater.text_eq
      rw [List.nil_append] at htext
      rwa [htext]

theorem Placed.append {offset : Nat} {before after : List Token}
    (h : Placed offset (before ++ after)) :
    Placed (offset + byteSize (before.flatMap Token.spelled)) after := by
  induction before generalizing offset with
  | nil => exact h
  | cons token before ih =>
      obtain ⟨hstart, -, hrest⟩ := h
      have hsum : token.stop + byteSize (before.flatMap Token.spelled)
          = offset + byteSize ((token :: before).flatMap Token.spelled) := by
        simp only [Token.stop, hstart, List.flatMap_cons, Token.spelled, byteSize_append]
        omega
      exact hsum ▸ ih hrest

theorem Placed.before {offset : Nat} {before after : List Token}
    (h : Placed offset (before ++ after)) : Placed offset before := by
  induction before generalizing offset with
  | nil => trivial
  | cons token before ih =>
      obtain ⟨hstart, hne, hrest⟩ := h
      exact ⟨hstart, hne, ih hrest⟩

theorem Separated.append {tail : List Char} {before after : List Token}
    (h : Separated tail (before ++ after)) : Separated tail after := by
  induction before with
  | nil => exact h
  | cons token before ih => exact ih h.2

theorem Placed.stopOf_eq {tokens : List Token} (h : Placed 0 tokens) :
    stopOf tokens = byteSize (tokens.flatMap Token.spelled) := by
  rcases List.eq_nil_or_concat tokens with rfl | ⟨init, last, rfl⟩
  · rfl
  · rw [List.concat_eq_append] at *
    obtain ⟨hstart, -⟩ := h.append
    simp only [stopOf, List.getLast?_concat, Option.map_some, Option.getD_some, Token.stop, hstart,
      List.flatMap_append, List.flatMap_singleton, Token.spelled, byteSize_append]
    omega

theorem Placed.ascending {offset : Nat} {tokens : List Token} (h : Placed offset tokens) :
    (∀ token ∈ tokens, offset ≤ token.start)
      ∧ tokens.Pairwise fun earlier later => earlier.stop ≤ later.start := by
  induction tokens generalizing offset with
  | nil => simp
  | cons token rest ih =>
      obtain ⟨hstart, -, hrest⟩ := h
      obtain ⟨hlater, hpairwise⟩ := ih hrest
      refine ⟨?_, List.pairwise_cons.mpr ⟨hlater, hpairwise⟩⟩
      intro other hother
      rcases List.mem_cons.mp hother with rfl | hother
      · omega
      · have := hlater other hother
        simp only [Token.stop] at this
        omega

/-! ## Cutting -/

/-- A text can be sliced between any two places between its characters. -/
theorem isSome_slice?_of_le {text front back front' back' : List Char}
    (h : text = front ++ back) (h' : text = front' ++ back')
    (hle : byteSize front ≤ byteSize front') :
    (slice? (byteSize front) (byteSize front') text).isSome := by
  suffices hmiddle : ∃ middle, front' = front ++ middle by
    obtain ⟨middle, rfl⟩ := hmiddle
    rw [h', byteSize_append, List.append_assoc, slice?_append]
    rfl
  rcases List.prefix_or_prefix_of_prefix ⟨back, h.symm⟩ ⟨back', h'.symm⟩ with hfront | hfront
  · obtain ⟨middle, rfl⟩ := hfront
    exact ⟨middle, rfl⟩
  · obtain ⟨more, rfl⟩ := hfront
    refine ⟨[], ?_⟩
    cases more with
    | nil => simp
    | cons c more =>
        have hpos := byteSize_pos (List.cons_ne_nil c more)
        rw [byteSize_append] at hle
        omega

/-- Around a token the document is cut at the ends of its gap and of its text. -/
theorem text_append_cons (before after : List Token) (token : Token) (tail : List Char) :
    Tokens.text ⟨before ++ token :: after, tail⟩
      = before.flatMap Token.spelled
        ++ (token.gap ++ (token.text ++ Tokens.text ⟨after, tail⟩)) := by
  simp only [Tokens.text, List.flatMap_append, List.flatMap_cons, List.append_assoc]
  rfl

/-- What is known about a token of a document whose tokens are in their places. -/
theorem Placed.cut {text : List Char} {document : Tokens} (h : Placed 0 document.tokens)
    (htext : document.text = text) {before after : List Token} {token : Token}
    (hsplit : document.tokens = before ++ token :: after) :
    token.text ≠ [] ∧ token.start = byteSize (before.flatMap Token.spelled) + byteSize token.gap
      ∧ text = before.flatMap Token.spelled
          ++ (token.gap ++ (token.text ++ Tokens.text ⟨after, document.tail⟩)) := by
  obtain ⟨tokens, tail⟩ := document
  obtain rfl : tokens = before ++ token :: after := hsplit
  obtain ⟨hstart, hne, -⟩ := h.append
  rw [← htext, text_append_cons]
  exact ⟨hne, by rw [hstart, Nat.zero_add], rfl⟩

/-- The ends of a token are places between characters, and so is the end of the document. -/
theorem Placed.isBound {text : List Char} {document : Tokens} (h : Placed 0 document.tokens)
    (htext : document.text = text) {offset : Nat} (hoffset : IsBound text document offset) :
    ∃ front back, text = front ++ back ∧ offset = byteSize front := by
  rcases hoffset with rfl | ⟨token, hmem, hoffset⟩
  · exact ⟨text, [], by simp, rfl⟩
  · obtain ⟨before, after, hsplit⟩ := List.append_of_mem hmem
    obtain ⟨-, hstart, hwhole⟩ := h.cut htext hsplit
    rcases hoffset with rfl | rfl
    · refine ⟨before.flatMap Token.spelled ++ token.gap,
        token.text ++ Tokens.text ⟨after, document.tail⟩, ?_, ?_⟩
      · rw [hwhole, List.append_assoc]
      · rw [hstart, byteSize_append]
    · refine ⟨before.flatMap Token.spelled ++ token.gap ++ token.text,
        Tokens.text ⟨after, document.tail⟩, ?_, ?_⟩
      · rw [hwhole, List.append_assoc, List.append_assoc]
      · rw [Token.stop, hstart, byteSize_append, byteSize_append]

/-- The tokens and gaps of a document tile it. -/
theorem tiling_ofText (text : List Char) : Tiling text (Tokens.ofText text) := by
  have hmunched : Munched 0 [] text (Tokens.ofText text) := munched_scan 0 [] text
  have hplaced : Placed 0 (Tokens.ofText text).tokens := hmunched.placed rfl
  have hseparated := hmunched.separated .nil
  have htext : (Tokens.ofText text).text = text := text_ofText text
  generalize Tokens.ofText text = document at hplaced hseparated htext
  refine ⟨htext, ?_, hplaced.ascending.2, ?_, ?_, ?_, ?_, ?_⟩
  · intro token hmem
    obtain ⟨before, after, hsplit⟩ := List.append_of_mem hmem
    obtain ⟨hne, -⟩ := hplaced.cut htext hsplit
    exact Nat.lt_add_of_pos_right (byteSize_pos hne)
  · intro token hmem
    obtain ⟨front, back, hfront, hstop⟩ := hplaced.isBound htext (.inr ⟨token, hmem, .inr rfl⟩)
    rw [hstop, hfront, byteSize_append]
    exact Nat.le_add_right _ _
  · intro token hmem
    obtain ⟨before, after, hsplit⟩ := List.append_of_mem hmem
    obtain ⟨-, hstart, hwhole⟩ := hplaced.cut htext hsplit
    rw [Token.stop, hstart, ← byteSize_append, hwhole, ← List.append_assoc, slice?_append]
  · intro before token after hsplit
    obtain ⟨-, hstart, hwhole⟩ := hplaced.cut htext hsplit
    have hbefore : Placed 0 before := (hsplit ▸ hplaced).before
    constructor
    · rw [hbefore.stopOf_eq, hstart, hwhole, slice?_append]
    · exact ((hsplit ▸ hseparated).append).1
  · have hwhole : text = document.tokens.flatMap Token.spelled ++ (document.tail ++ []) := by
      rw [← htext, List.append_nil]
      rfl
    have hsize : byteSize text
        = byteSize (document.tokens.flatMap Token.spelled) + byteSize document.tail := by
      rw [hwhole, List.append_nil, byteSize_append]
    constructor
    · have hslice := slice?_append (document.tokens.flatMap Token.spelled) document.tail []
      rwa [← hsize, ← hwhole, ← hplaced.stopOf_eq] at hslice
    · rw [← List.append_nil document.tokens] at hseparated
      exact hseparated.append
  · intro start stop hstart hstop hle
    obtain ⟨front, back, hfront, rfl⟩ := hplaced.isBound htext hstart
    obtain ⟨front', back', hfront', rfl⟩ := hplaced.isBound htext hstop
    exact isSome_slice?_of_le hfront hfront' hle

end Specimen.Source
