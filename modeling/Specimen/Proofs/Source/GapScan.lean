import Specimen.Proofs.Source.Lexing
import Specimen.Proofs.Source.Tiling

/-!
# Scanning a gap

Blanks and comments in front of a text are passed over. Nothing else changes: the text is scanned
as it is by itself, at its place and behind the longer gap (`Gap.scan_append`).
-/

namespace Specimen.Source

open Pattern

section Pieces

variable {text rest : List Char} {offset : Nat} {gap : List Char}

/-- A piece that is no token becomes a part of the gap. -/
theorem IsPiece.scan_gap (h : IsPiece (text ++ rest) none text.length) :
    scan offset gap (text ++ rest) = scan (offset + byteSize text) (gap ++ text) rest :=
  (Munched.gap h (munched_scan _ _ rest)).eq_scan.symm

/-- A piece that is a token comes first, behind the gap. -/
theorem IsPiece.scan_token {kind : TokenKind} (h : IsPiece (text ++ rest) (some kind) text.length) :
    (scan offset gap (text ++ rest)).tokens
      = ⟨kind, gap, text, offset⟩ :: (scan (offset + byteSize text) [] rest).tokens :=
  congrArg Tokens.tokens (Munched.token h (munched_scan _ _ rest)).eq_scan.symm

end Pieces

/-! ## Pieces of a gap -/

/-- A run of blanks is scanned as one piece, and so is what is left of it behind its first blank. -/
theorem scan_blank {c : Char} (hc : Pattern.isBlank c = true) (offset : Nat)
    (gap rest : List Char) :
    scan offset gap (c :: rest) = scan (offset + byteSize [c]) (gap ++ [c]) rest := by
  obtain ⟨run, after, rfl, hrun, hafter⟩ : ∃ run after, rest = run ++ after
      ∧ (∀ d ∈ run, Pattern.isBlank d = true) ∧ ∀ d ∈ after.head?, Pattern.isBlank d = false := by
    refine ⟨rest.takeWhile Pattern.isBlank, rest.dropWhile Pattern.isBlank,
      List.takeWhile_append_dropWhile.symm, fun d => List.mem_takeWhile_imp, fun d hd => ?_⟩
    have := List.head?_dropWhile_not Pattern.isBlank rest
    rw [Option.mem_def.mp hd] at this
    simpa using this
  have hfirst : pieceAt c (run ++ after) = (none, run.length) :=
    pieceAt_blanks (List.forall_mem_cons.mpr ⟨hc, hrun⟩) hafter
  rw [scan, hfirst]
  cases run with
  | nil => simp
  | cons d run =>
      rw [List.cons_append, scan, pieceAt_blanks hrun hafter]
      simp [byteSize, Nat.add_assoc]

theorem startOnly_slash :
    StartOnly ['/'] fun piece => piece == .blank || piece == .openComment := by
  unfold StartOnly
  decide

/-- What the rules allow behind a slash. -/
theorem comment_of_fits {rest : List Char} {rule : Piece × Pattern} (hrule : rule ∈ rules) {m : Nat}
    (hm : 0 < m) (hfits : Fits rule.2 ('/' :: rest) m) :
    rule = (.blank, lineComment) ∨ rule = (.openComment, blockCommentStart) := by
  have hallowed := allowed_of_fits startOnly_slash (List.mem_singleton.mpr rfl) hrule hm hfits
  have hblanks : ¬Fits blanks ('/' :: rest) m := by
    intro hfits
    have hwithin : blanks.Within Pattern.isBlank := ⟨fun _ => id, fun _ => id⟩
    have hslash : ∀ c ∈ ('/' :: rest).head?, Pattern.isBlank c = false := fun c hc => by
      cases hc
      decide
    have hle : m ≤ ([] : List Char).length := hwithin.le_of_fits hslash hfits
    exact absurd hm (Nat.not_lt.mpr hle)
  revert rule
  rw [forall_mem_rules]
  simp [hblanks]

/-- A comment up to the end of its line is a piece. -/
theorem isPiece_lineComment {body rest : List Char} (hbody : '\n' ∉ body)
    (hend : ∀ c ∈ rest.head?, c = '\n') :
    IsPiece (('/' :: '/' :: body) ++ rest) none ('/' :: '/' :: body).length := by
  have hrule : (Piece.blank, lineComment) ∈ rules := by simp [rules]
  have hmatch : Matches lineComment ('/' :: '/' :: body) :=
    matches_lineComment_iff.mpr ⟨body, rfl, hbody⟩
  refine .blank ⟨Nat.succ_pos _, ⟨_, hrule, fits_append_iff.mpr hmatch⟩, ?_, ?_⟩
  · intro rule hrule m hfits
    rcases Nat.eq_zero_or_pos m with rfl | hm
    · exact Nat.zero_le _
    · have hwithin : rule.2.Within (· != '\n') := by
        rcases comment_of_fits hrule hm hfits with rfl | rfl
        · exact ⟨within_literal (by simp), fun c hc => by simpa using hc⟩
        · exact within_literal (by simp)
      exact hwithin.le_of_fits (fun c hc => by simp [hend c hc]) hfits
  · intro rule hrule hfits
    rcases comment_of_fits hrule (Nat.succ_pos _) hfits with rfl | rfl
    · rfl
    · -- the start of a block comment is another text
      have hstart := matches_literal_iff.mp (fits_append_iff.mp hfits)
      cases hstart

/-- A block comment up to its first end is a piece. -/
theorem isPiece_blockComment {body : List Char} (hend : EndsFirst body) (rest : List Char) :
    IsPiece (('/' :: '*' :: (body ++ ['*', '/'])) ++ rest) none
      ('/' :: '*' :: (body ++ ['*', '/'])).length := by
  have hrule : (Piece.openComment, blockCommentStart) ∈ rules := by simp [rules]
  have hstart : ∀ rule ∈ rules, ∀ m, 0 < m →
      Fits rule.2 (['/', '*'] ++ (body ++ '*' :: '/' :: rest)) m →
        rule = (.openComment, blockCommentStart) ∧ m = 2 := by
    intro rule hrule m hm hfits
    rcases comment_of_fits hrule hm hfits with rfl | rfl
    · obtain ⟨more, hmore, -⟩ := matches_lineComment_iff.mp hfits.2
      cases m with
      | zero => exact absurd hm (Nat.lt_irrefl 0)
      | succ m => cases m <;> cases hmore
    · have hlength := congrArg List.length (matches_literal_iff.mp hfits.2)
      rw [List.length_take, Nat.min_eq_left hfits.1] at hlength
      exact ⟨rfl, hlength⟩
  have hlongest :
      IsLongest (['/', '*'] ++ (body ++ '*' :: '/' :: rest)) .openComment ['/', '*'].length := by
    refine ⟨Nat.succ_pos _, ⟨_, hrule, fits_append_iff.mpr (matches_literal_iff.mpr rfl)⟩, ?_, ?_⟩
    · intro rule hrule m hfits
      rcases Nat.eq_zero_or_pos m with rfl | hm
      · exact Nat.zero_le _
      · exact Nat.le_of_eq (hstart rule hrule m hm hfits).2
    · intro rule hrule hfits
      rw [(hstart rule hrule _ (Nat.succ_pos _) hfits).1]
      rfl
  have hpiece := IsPiece.comment hlongest rfl hend
  have htext : ('/' :: '*' :: (body ++ ['*', '/'])) ++ rest
      = ['/', '*'] ++ (body ++ '*' :: '/' :: rest) := by simp
  have hlength :
      ('/' :: '*' :: (body ++ ['*', '/'])).length = ['/', '*'].length + (body.length + 2) := by
    simp only [List.length_cons, List.length_append, List.length_nil]
    omega
  rw [htext, hlength]
  exact hpiece

/-! ## Whole gaps -/

/-- Whether a text is a gap depends on the next character only. -/
theorem Gap.of_head?_eq {text after other : List Char} (h : Gap text after)
    (hother : other.head? = after.head?) : Gap text other := by
  induction h with
  | nil => exact .nil
  | blank hc _ ih => exact .blank hc (ih hother)
  | lineComment hbody hend _ ih =>
      refine .lineComment hbody ?_ (ih hother)
      rwa [List.head?_append, hother, ← List.head?_append]
  | blockComment hend _ ih => exact .blockComment hend (ih hother)

/-- What is passed over goes on behind its first piece. -/
theorem scan_passed {piece rest after gap : List Char} {offset : Nat}
    (hpiece : scan offset gap (piece ++ (rest ++ after))
      = scan (offset + byteSize piece) (gap ++ piece) (rest ++ after))
    (hrest : scan (offset + byteSize piece) (gap ++ piece) (rest ++ after)
      = scan (offset + byteSize piece + byteSize rest) (gap ++ piece ++ rest) after) :
    scan offset gap ((piece ++ rest) ++ after)
      = scan (offset + byteSize (piece ++ rest)) (gap ++ (piece ++ rest)) after := by
  rw [List.append_assoc, hpiece, hrest, byteSize_append, Nat.add_assoc, List.append_assoc]

/-- A gap in front of a text is passed over. -/
theorem Gap.scan_append {text after : List Char} (h : Gap text after) (offset : Nat)
    (gap : List Char) :
    scan offset gap (text ++ after) = scan (offset + byteSize text) (gap ++ text) after := by
  induction h generalizing offset gap with
  | nil => simp [byteSize]
  | @blank c rest after hc _ ih =>
      have hpiece : scan offset gap ([c] ++ (rest ++ after))
          = scan (offset + byteSize [c]) (gap ++ [c]) (rest ++ after) := scan_blank hc offset gap _
      exact scan_passed hpiece (ih _ _)
  | @lineComment body rest after hbody hend _ ih =>
      exact scan_passed (isPiece_lineComment hbody hend).scan_gap (ih _ _)
  | @blockComment body rest after hend _ ih =>
      have hsplit : '/' :: '*' :: (body ++ '*' :: '/' :: rest)
          = ('/' :: '*' :: (body ++ ['*', '/'])) ++ rest := by simp
      rw [hsplit]
      exact scan_passed (isPiece_blockComment hend _).scan_gap (ih _ _)

end Specimen.Source
