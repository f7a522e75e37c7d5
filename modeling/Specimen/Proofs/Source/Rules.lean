import Specimen.Proofs.Source.Munch

/-!
# Choosing a rule

Which texts the patterns of tokens have, and how the rule for the front of an input is found. Most
rules are out because of the first character of the input (`allowed_of_fits`), and a text whose
characters are all of one class ends where the class ends (`Pattern.Within.le_of_fits`). Main
statements: `longestRule?_rules`, `longestRule?_of_startOnly`.
-/

namespace Specimen.Source

namespace Pattern

/-! ## Texts of patterns -/

theorem matches_literal_iff {text s : List Char} : Matches (literal text) s ↔ s = text := by
  induction text generalizing s with
  | nil => exact matches_empty_iff
  | cons c text ih =>
      rw [literal, List.foldr_cons, matches_seq_iff]
      constructor
      · rintro ⟨t, u, rfl, ht, hu⟩
        obtain ⟨d, hd, rfl⟩ := matches_one_iff.mp ht
        rw [ih.mp hu, beq_iff_eq.mp hd, List.singleton_append]
      · rintro rfl
        exact ⟨[c], text, rfl, .one (beq_self_eq_true c), ih.mpr rfl⟩

theorem matches_many_one {accepts : Char → Bool} {s : List Char} (h : ∀ c ∈ s, accepts c = true) :
    Matches (.many (.one accepts)) s := by
  induction s with
  | nil => exact .done
  | cons c s ih =>
      rw [← List.singleton_append]
      exact .more (.one (h c List.mem_cons_self)) (ih fun d hd => h d (List.mem_cons_of_mem c hd))

theorem matches_optional_nil (p : Pattern) : Matches (optional p) [] :=
  .right .empty

/-- All characters of all texts of the pattern are of a class. -/
def Within (accepts : Char → Bool) : Pattern → Prop
  | .nothing => True
  | .empty => True
  | .one narrower => ∀ c, narrower c = true → accepts c = true
  | .seq p q => p.Within accepts ∧ q.Within accepts
  | .either p q => p.Within accepts ∧ q.Within accepts
  | .many p => p.Within accepts

theorem Within.all_of_matches {accepts : Char → Bool} {p : Pattern} {s : List Char}
    (hwithin : p.Within accepts) (h : Matches p s) : ∀ c ∈ s, accepts c = true := by
  induction h with
  | empty => simp
  | one hc =>
      intro c hmem
      rw [List.mem_singleton.mp hmem]
      exact hwithin _ hc
  | seq _ _ ihp ihq =>
      intro c hmem
      rcases List.mem_append.mp hmem with hmem | hmem
      · exact ihp hwithin.1 c hmem
      · exact ihq hwithin.2 c hmem
  | left _ ih => exact ih hwithin.1
  | right _ ih => exact ih hwithin.2
  | done => simp
  | more _ _ ihp ihrest =>
      intro c hmem
      rcases List.mem_append.mp hmem with hmem | hmem
      · exact ihp hwithin c hmem
      · exact ihrest hwithin c hmem

theorem within_literal {accepts : Char → Bool} {text : List Char}
    (h : ∀ c ∈ text, accepts c = true) : (literal text).Within accepts := by
  induction text with
  | nil => trivial
  | cons c text ih =>
      constructor
      · intro d hd
        rw [beq_iff_eq.mp hd]
        exact h c List.mem_cons_self
      · exact ih fun d hd => h d (List.mem_cons_of_mem c hd)

theorem within_anyOf {accepts : Char → Bool} {chars : List Char}
    (h : chars.all accepts = true) : (anyOf chars).Within accepts := by
  intro c hc
  exact List.all_eq_true.mp h c (List.contains_iff_mem.mp hc)

/-- A text inside a class does not go on where the class ends. -/
theorem Within.le_of_fits {accepts : Char → Bool} {p : Pattern} {text rest : List Char} {m : Nat}
    (hwithin : p.Within accepts) (hrest : ∀ c ∈ rest.head?, accepts c = false)
    (h : Fits p (text ++ rest) m) : m ≤ text.length := by
  apply Nat.le_of_not_lt
  intro hlt
  obtain ⟨hlength, hmatch⟩ := h
  cases rest with
  | nil =>
      rw [List.append_nil] at hlength
      omega
  | cons c rest =>
      have hmem : c ∈ (text ++ c :: rest).take m := by
        obtain ⟨more, rfl⟩ : ∃ more, m = text.length + (more + 1) :=
          ⟨m - text.length - 1, by omega⟩
        rw [List.take_length_add_append, List.take_succ_cons]
        exact List.mem_append_right _ List.mem_cons_self
      have haccepts := hwithin.all_of_matches hmatch c hmem
      rw [hrest c rfl] at haccepts
      cases haccepts

end Pattern

open Pattern

/-! ## Rules by their first character -/

theorem forall_mem_rules {P : Piece × Pattern → Prop} :
    (∀ rule ∈ rules, P rule) ↔
      (∀ word : Keyword, P (.token (.keyword word), .literal word.text.toList))
        ∧ P (.token .number, .decimalNumber) ∧ P (.token .number, .hexNumber)
        ∧ P (.token .string, .stringLiteral) ∧ P (.token .template, .templateLiteral)
        ∧ P (.token .identifier, .name)
        ∧ (∀ mark : Mark, P (.token (.mark mark), .literal mark.text.toList))
        ∧ P (.blank, .blanks) ∧ P (.blank, .lineComment)
        ∧ P (.openComment, .blockCommentStart) := by
  have hkeywords : (∀ rule ∈ Keyword.all.map fun word =>
        ((.token (.keyword word), .literal word.text.toList) : Piece × Pattern), P rule)
      ↔ ∀ word : Keyword, P (.token (.keyword word), .literal word.text.toList) := by
    simp [Keyword.mem_all]
  have hmarks : (∀ rule ∈ Mark.all.map fun mark =>
        ((.token (.mark mark), .literal mark.text.toList) : Piece × Pattern), P rule)
      ↔ ∀ mark : Mark, P (.token (.mark mark), .literal mark.text.toList) := by
    simp [Mark.mem_all]
  rw [rules, List.forall_mem_append, List.forall_mem_append, List.forall_mem_append, hkeywords,
    hmarks]
  simp [and_assoc]

/-- Only pieces of one sort start with certain characters. -/
def StartOnly (chars : List Char) (allowed : Piece → Bool) : Prop :=
  (chars.all fun c => rules.all fun rule =>
    (rule.2.derive c).isNothing || allowed rule.1) = true

theorem allowed_of_fits {chars : List Char} {allowed : Piece → Bool} (h : StartOnly chars allowed)
    {c : Char} (hc : c ∈ chars) {rest : List Char} {rule : Piece × Pattern} (hrule : rule ∈ rules)
    {m : Nat} (hm : 0 < m) (hfits : Fits rule.2 (c :: rest) m) : allowed rule.1 = true := by
  obtain ⟨m, rfl⟩ := Nat.exists_eq_succ_of_ne_zero (Nat.ne_of_gt hm)
  have hone := List.all_eq_true.mp (List.all_eq_true.mp h c hc) rule hrule
  rcases Bool.or_eq_true_iff.mp hone with hnothing | hallowed
  · exact absurd (fits_cons_succ_iff.mp hfits) (not_fits_of_isNothing hnothing rest m)
  · exact hallowed

/-- The rule for the longest text, when no rule before it has a text of the same length. -/
theorem longestRule?_rules {before after : List (Piece × Pattern)} {piece : Piece}
    {pattern : Pattern} {input : List Char} {n : Nat}
    (hrules : rules = before ++ (piece, pattern) :: after) (hn : 0 < n)
    (hfits : Fits pattern input n)
    (hall : ∀ rule ∈ rules, ∀ m, 0 < m → Fits rule.2 input m → m ≤ n)
    (hbefore : ∀ rule ∈ before, ¬ Fits rule.2 input n) :
    longestRule? input rules = some (piece, n) := by
  have hle : ∀ rule ∈ rules, ∀ m, Fits rule.2 input m → m ≤ n := by
    intro rule hrule m hm
    cases m with
    | zero => exact Nat.zero_le n
    | succ m => exact hall rule hrule (m + 1) (Nat.succ_pos m) hm
  have hchosen : Chosen input piece n ((piece, pattern) :: after) := by
    refine .here ⟨hfits, hle (piece, pattern) (by simp [hrules])⟩ fun rule hrule => ?_
    exact hle rule (by simp [hrules, hrule])
  rw [longestRule?_eq_some_iff, hrules]
  refine .append ?_ hchosen
  intro rule hrule m hm
  have hmem : rule ∈ rules := by
    rw [hrules]
    exact List.mem_append_left _ hrule
  apply Nat.lt_of_le_of_ne (hle rule hmem m hm)
  rintro rfl
  exact hbefore rule hrule hm

/-- The same, when none of the rules before it may start with the first character. -/
theorem longestRule?_of_startOnly {chars : List Char} {allowed : Piece → Bool}
    (hstart : StartOnly chars allowed) {before after : List (Piece × Pattern)} {piece : Piece}
    {pattern : Pattern} {first : Char} {rest : List Char} {n : Nat} (hfirst : first ∈ chars)
    (hrules : rules = before ++ (piece, pattern) :: after)
    (hbefore : (before.all fun rule => !allowed rule.1) = true)
    (hfits : Fits pattern (first :: rest) (n + 1))
    (hall : ∀ rule ∈ rules, allowed rule.1 = true → ∀ m, 0 < m →
      Fits rule.2 (first :: rest) m → m ≤ n + 1) :
    longestRule? (first :: rest) rules = some (piece, n + 1) := by
  refine longestRule?_rules hrules (Nat.succ_pos n) hfits ?_ ?_
  · intro rule hrule m hm hm'
    exact hall rule hrule (allowed_of_fits hstart hfirst hrule hm hm') m hm hm'
  · intro rule hrule hother
    have hmem : rule ∈ rules := by
      rw [hrules]
      exact List.mem_append_left _ hrule
    have hnot := List.all_eq_true.mp hbefore rule hrule
    rw [allowed_of_fits hstart hfirst hmem (Nat.succ_pos n) hother] at hnot
    cases hnot

theorem pieceAt_of_longestRule? {first : Char} {rest : List Char} {kind : TokenKind} {n : Nat}
    (h : longestRule? (first :: rest) rules = some (.token kind, n + 1)) :
    pieceAt first rest = (some kind, n) := by
  simp only [pieceAt, h]

end Specimen.Source
