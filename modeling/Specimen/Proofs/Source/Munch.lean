import Specimen.Source.Lexeme

/-!
# The longest text

`Pattern.Fits p input n` says that the first `n` characters of an input are a text of a pattern, and
`Pattern.FitsMost p input n` that there is no longer one. `longest?` finds this length, and
`longestRule?` the first rule with the greatest length of all (`Chosen`). Main statements:
`Pattern.longest?_eq_some_iff`, `longestRule?_eq_some_iff`.
-/

namespace Specimen.Source

namespace Pattern

/-- The first `n` characters of the input are a text of the pattern. -/
def Fits (p : Pattern) (input : List Char) (n : Nat) : Prop :=
  n ≤ input.length ∧ Matches p (input.take n)

/-- The longest text of the pattern at the front of the input has `n` characters. -/
structure FitsMost (p : Pattern) (input : List Char) (n : Nat) : Prop where
  fits : Fits p input n
  le : ∀ m, Fits p input m → m ≤ n

theorem fits_zero_iff {p : Pattern} {input : List Char} :
    Fits p input 0 ↔ p.acceptsEmpty = true := by
  rw [acceptsEmpty_iff]
  simp [Fits]

theorem fits_cons_succ_iff {p : Pattern} {c : Char} {rest : List Char} {n : Nat} :
    Fits p (c :: rest) (n + 1) ↔ Fits (p.derive c) rest n := by
  simp [Fits, matches_derive_iff]

theorem fits_nil_iff {p : Pattern} {n : Nat} :
    Fits p [] n ↔ n = 0 ∧ p.acceptsEmpty = true := by
  constructor
  · rintro ⟨hlength, hmatch⟩
    obtain rfl : n = 0 := by simpa using hlength
    exact ⟨rfl, (acceptsEmpty_iff p).mpr hmatch⟩
  · rintro ⟨rfl, hempty⟩
    exact fits_zero_iff.mpr hempty

theorem not_fits_of_isNothing {p : Pattern} (h : p.isNothing = true) (input : List Char) (n : Nat) :
    ¬ Fits p input n := by
  cases p with
  | nothing => exact fun hfits => matches_nothing hfits.2
  | _ => simp [isNothing] at h

theorem fitsMost_nil {p : Pattern} (hempty : p.acceptsEmpty = true) : FitsMost p [] 0 where
  fits := fits_zero_iff.mpr hempty
  le _ hm := Nat.le_of_eq (fits_nil_iff.mp hm).1

/-- The longest text goes on below the derivative. -/
theorem FitsMost.cons {p : Pattern} {c : Char} {rest : List Char} {n : Nat}
    (h : FitsMost (p.derive c) rest n) : FitsMost p (c :: rest) (n + 1) where
  fits := fits_cons_succ_iff.mpr h.fits
  le m hm := by
    cases m with
    | zero => exact Nat.zero_le _
    | succ m => exact Nat.succ_le_succ (h.le m (fits_cons_succ_iff.mp hm))

/-- The empty text is the longest one if no text begins with the character. -/
theorem fitsMost_zero {p : Pattern} {c : Char} {rest : List Char} (hempty : p.acceptsEmpty = true)
    (hnone : ∀ m, ¬ Fits (p.derive c) rest m) : FitsMost p (c :: rest) 0 where
  fits := fits_zero_iff.mpr hempty
  le m hm := by
    cases m with
    | zero => exact Nat.le_refl 0
    | succ m => exact absurd (fits_cons_succ_iff.mp hm) (hnone m)

theorem FitsMost.unique {p : Pattern} {input : List Char} {n n' : Nat} (h : FitsMost p input n)
    (h' : FitsMost p input n') : n = n' :=
  Nat.le_antisymm (h'.le n h.fits) (h.le n' h'.fits)

theorem longest?_eq_none_of_isNothing {p : Pattern} (h : p.isNothing = true) (input : List Char) :
    p.longest? input = none := by
  cases p with
  | nothing => cases input <;> rfl
  | _ => cases h

/-- The search goes on below the derivative; that it stops where nothing can follow saves steps. -/
theorem longest?_cons (p : Pattern) (c : Char) (rest : List Char) :
    p.longest? (c :: rest) =
      match (p.derive c).longest? rest with
      | some n => some (n + 1)
      | none => if p.acceptsEmpty then some 0 else none := by
  have hbelow : (if (p.derive c).isNothing then none else (p.derive c).longest? rest)
      = (p.derive c).longest? rest := by
    split
    · exact (longest?_eq_none_of_isNothing ‹_› rest).symm
    · rfl
  cases hnext : (p.derive c).longest? rest with
  | none =>
      rw [hnext] at hbelow
      simp only [longest?, hnext, hbelow]
  | some n =>
      rw [hnext] at hbelow
      simp only [longest?, hnext, hbelow]

/-- What the search for the longest text finds. -/
theorem longest?_spec (p : Pattern) (input : List Char) :
    match p.longest? input with
    | some n => FitsMost p input n
    | none => ∀ m, ¬ Fits p input m := by
  induction input generalizing p with
  | nil =>
      by_cases hempty : p.acceptsEmpty
      · simp only [longest?, hempty, if_true]
        exact fitsMost_nil hempty
      · simp only [longest?, hempty, Bool.false_eq_true, if_false]
        exact fun m hm => hempty (fits_nil_iff.mp hm).2
  | cons c rest ih =>
      have hbelow := ih (p.derive c)
      rw [longest?_cons]
      cases hnext : (p.derive c).longest? rest with
      | some n =>
          rw [hnext] at hbelow
          exact hbelow.cons
      | none =>
          rw [hnext] at hbelow
          by_cases hempty : p.acceptsEmpty
          · simp only [hempty, if_true]
            exact fitsMost_zero hempty hbelow
          · simp only [hempty, Bool.false_eq_true, if_false]
            intro m hm
            cases m with
            | zero => exact hempty (fits_zero_iff.mp hm)
            | succ m => exact hbelow m (fits_cons_succ_iff.mp hm)

theorem longest?_eq_some_iff {p : Pattern} {input : List Char} {n : Nat} :
    p.longest? input = some n ↔ FitsMost p input n := by
  have hspec := longest?_spec p input
  constructor
  · intro h
    rwa [h] at hspec
  · intro hmost
    cases hlongest : p.longest? input with
    | none =>
        rw [hlongest] at hspec
        exact absurd hmost.fits (hspec n)
    | some m =>
        rw [hlongest] at hspec
        rw [hspec.unique hmost]

theorem longest?_eq_none_iff {p : Pattern} {input : List Char} :
    p.longest? input = none ↔ ∀ m, ¬ Fits p input m := by
  have hspec := longest?_spec p input
  constructor
  · intro h
    rwa [h] at hspec
  · intro hnone
    cases hlongest : p.longest? input with
    | none => rfl
    | some m =>
        rw [hlongest] at hspec
        exact absurd hspec.fits (hnone m)

end Pattern

open Pattern

/-! ## The first rule with the longest text -/

/-- The piece belongs to the first of the rules with the longest text of all, which has `n`
characters: the texts of earlier rules are shorter, and those of later ones are not longer. -/
inductive Chosen (input : List Char) (piece : Piece) (n : Nat) : List (Piece × Pattern) → Prop
  | here {pattern : Pattern} {rest : List (Piece × Pattern)} (hmost : FitsMost pattern input n)
      (hrest : ∀ rule ∈ rest, ∀ m, Fits rule.2 input m → m ≤ n) :
      Chosen input piece n ((piece, pattern) :: rest)
  | later {rule : Piece × Pattern} {rest : List (Piece × Pattern)}
      (hrule : ∀ m, Fits rule.2 input m → m < n) (hrest : Chosen input piece n rest) :
      Chosen input piece n (rule :: rest)

namespace Chosen

variable {input : List Char} {piece : Piece} {n : Nat} {rules : List (Piece × Pattern)}

/-- No rule has a longer text. -/
theorem le (h : Chosen input piece n rules) :
    ∀ rule ∈ rules, ∀ m, Fits rule.2 input m → m ≤ n := by
  induction h with
  | here hmost hrest => exact List.forall_mem_cons.mpr ⟨hmost.le, hrest⟩
  | later hrule _ ih => exact List.forall_mem_cons.mpr ⟨fun m hm => Nat.le_of_lt (hrule m hm), ih⟩

/-- The rules before the chosen one have shorter texts. -/
theorem exists_split (h : Chosen input piece n rules) :
    ∃ before pattern after, rules = before ++ (piece, pattern) :: after
      ∧ Fits pattern input n ∧ ∀ rule ∈ before, ∀ m, Fits rule.2 input m → m < n := by
  induction h with
  | @here pattern rest hmost _ => exact ⟨[], pattern, rest, rfl, hmost.fits, by simp⟩
  | @later rule rest hrule _ ih =>
      obtain ⟨before, pattern, after, rfl, hfits, hbefore⟩ := ih
      exact ⟨rule :: before, pattern, after, rfl, hfits,
        List.forall_mem_cons.mpr ⟨hrule, hbefore⟩⟩

/-- Rules with shorter texts may stand before the others. -/
theorem append {before : List (Piece × Pattern)}
    (hbefore : ∀ rule ∈ before, ∀ m, Fits rule.2 input m → m < n)
    (h : Chosen input piece n rules) : Chosen input piece n (before ++ rules) := by
  induction before with
  | nil => exact h
  | cons rule before ih =>
      obtain ⟨hrule, hbefore⟩ := List.forall_mem_cons.mp hbefore
      exact .later hrule (ih hbefore)

end Chosen

theorem longestRule?_eq_none_iff {input : List Char} {rules : List (Piece × Pattern)} :
    longestRule? input rules = none ↔ ∀ rule ∈ rules, ∀ m, ¬ Fits rule.2 input m := by
  induction rules with
  | nil => simp [longestRule?]
  | cons rule rest ih =>
      obtain ⟨piece, pattern⟩ := rule
      rw [longestRule?, List.forall_mem_cons, ← ih, ← longest?_eq_none_iff]
      cases pattern.longest? input with
      | none => simp
      | some length =>
          cases longestRule? input rest with
          | none => simp
          | some later =>
              simp only [reduceCtorEq, false_and, iff_false]
              split <;> simp

/-- What is found belongs to the first of the rules with the longest text. -/
theorem chosen_of_longestRule? {input : List Char} {rules : List (Piece × Pattern)} {piece : Piece}
    {n : Nat} (h : longestRule? input rules = some (piece, n)) : Chosen input piece n rules := by
  induction rules generalizing piece n with
  | nil => cases h
  | cons rule rest ih =>
      obtain ⟨first, pattern⟩ := rule
      rw [longestRule?] at h
      cases hlongest : pattern.longest? input with
      | none =>
          simp only [hlongest] at h
          have hnone := longest?_eq_none_iff.mp hlongest
          exact .later (fun m hm => absurd hm (hnone m)) (ih h)
      | some length =>
          have hmost := longest?_eq_some_iff.mp hlongest
          cases hlater : longestRule? input rest with
          | none =>
              simp only [hlongest, hlater] at h
              cases h
              have hnone := longestRule?_eq_none_iff.mp hlater
              exact .here hmost fun rule hrule m hm => absurd hm (hnone rule hrule m)
          | some found =>
              have hfound := ih hlater
              simp only [hlongest, hlater] at h
              split at h
              · rename_i hle
                cases h
                exact .here hmost fun rule hrule m hm =>
                  Nat.le_trans (hfound.le rule hrule m hm) hle
              · rename_i hless
                cases h
                exact .later (fun m hm => Nat.lt_of_le_of_lt (hmost.le m hm) (Nat.not_le.mp hless))
                  hfound

theorem longestRule?_of_chosen {input : List Char} {rules : List (Piece × Pattern)} {piece : Piece}
    {n : Nat} (h : Chosen input piece n rules) : longestRule? input rules = some (piece, n) := by
  induction h with
  | @here pattern rest hmost hrest =>
      rw [longestRule?, longest?_eq_some_iff.mpr hmost]
      cases hlater : longestRule? input rest with
      | none => rfl
      | some later =>
          obtain ⟨before, chosen, after, rfl, hfits, -⟩ :=
            (chosen_of_longestRule? hlater).exists_split
          simp only [if_pos (hrest (later.1, chosen) (by simp) later.2 hfits)]
  | @later rule rest hrule _ ih =>
      rw [longestRule?, ih]
      cases hlongest : rule.2.longest? input with
      | none => rfl
      | some length =>
          have hless : length < n := hrule length (longest?_eq_some_iff.mp hlongest).fits
          simp only [if_neg (Nat.not_le.mpr hless)]

theorem longestRule?_eq_some_iff {input : List Char} {rules : List (Piece × Pattern)}
    {piece : Piece} {n : Nat} :
    longestRule? input rules = some (piece, n) ↔ Chosen input piece n rules :=
  ⟨chosen_of_longestRule?, longestRule?_of_chosen⟩

end Specimen.Source
