import Mathlib
import Specimen.Decimal.Numeral
import Specimen.Decimal.Text

/-!
# Decimal digits

The digits of a natural number and the number that digits stand for. Zeros at the end of a list of
digits are powers of ten (`natOfDigits_dropTrailingZeros`). `LeadingDigits` describes the digits of
a positive number as they are written: at least one, and no needless zero before them.
-/

namespace Specimen.Decimal

theorem isDigit_of_mem_natChars {n : Nat} {c : Char} (h : c ∈ natChars n) : c.isDigit = true :=
  Nat.isDigit_of_mem_toDigits (by decide) (by decide) h

theorem natChars_ne_nil (n : Nat) : natChars n ≠ [] :=
  Nat.toDigits_ne_nil

theorem natOfDigits_natChars (n : Nat) : natOfDigits (natChars n) = n := by
  have hread : Nat.ofDigitChars 10 (Nat.toDigits 10 n) 0 = n :=
    Nat.ofDigitChars_toDigits (by decide) (by decide)
  rw [Nat.ofDigitChars_eq_foldl] at hread
  simpa only [natOfDigits, natChars, digitsOf, Nat.mul_comm] using hread

/-- The first digit of a positive number is not zero. -/
theorem head?_natChars_ne_zero {n : Nat} (hn : 0 < n) : (natChars n).head? ≠ some '0' := by
  induction n using Nat.strongRecOn with
  | ind n ih =>
      unfold natChars digitsOf at *
      by_cases hsmall : n < 10
      · rw [Nat.toDigits_of_lt_base hsmall, List.head?_cons]
        have htable : ∀ k < 10, 0 < k → some (Nat.digitChar k) ≠ some '0' := by decide
        exact htable n hsmall hn
      · rw [Nat.toDigits_of_base_le (by decide) (by omega),
          List.head?_append_of_ne_nil _ Nat.toDigits_ne_nil]
        exact ih (n / 10) (by omega) (by omega)

/-- A positive number has at least the power of ten of its first digit. -/
theorem ten_pow_le_of_length {n : Nat} (hn : 0 < n) : 10 ^ ((digitsOf n).length - 1) ≤ n := by
  unfold digitsOf
  by_cases hone : (Nat.toDigits 10 n).length - 1 = 0
  · rw [hone]
    exact hn
  · by_contra hlt
    have hle := (Nat.length_toDigits_le_iff (by decide) (by omega)).mpr (Nat.not_le.mp hlt)
    omega

/-- It is below the next one. -/
theorem lt_ten_pow_length (n : Nat) : n < 10 ^ (digitsOf n).length :=
  (Nat.length_toDigits_le_iff (by decide) Nat.length_toDigits_pos).mp (Nat.le_refl _)

/-! ## The number of digits -/

theorem natOfDigits_append (digits more : List Char) :
    natOfDigits (digits ++ more) = natOfDigits digits * 10 ^ more.length + natOfDigits more := by
  have hfrom : ∀ (more : List Char) (n : Nat),
      more.foldl (fun n c => n * 10 + (c.toNat - '0'.toNat)) n
        = n * 10 ^ more.length + natOfDigits more := by
    intro more
    induction more with
    | nil => intro n; simp [natOfDigits]
    | cons c more ih =>
        intro n
        have hcons : natOfDigits (c :: more)
            = (0 * 10 + (c.toNat - '0'.toNat)) * 10 ^ more.length + natOfDigits more := ih _
        rw [List.foldl_cons, ih, hcons, List.length_cons, Nat.pow_succ]
        ring
  rw [natOfDigits, List.foldl_append]
  exact hfrom more (natOfDigits digits)

theorem natOfDigits_zeros (n : Nat) : natOfDigits (List.replicate n '0') = 0 := by
  induction n with
  | zero => rfl
  | succ n ih =>
      rw [List.replicate_succ', natOfDigits_append, ih]
      rfl

theorem natOfDigits_zeros_append (n : Nat) (digits : List Char) :
    natOfDigits (List.replicate n '0' ++ digits) = natOfDigits digits := by
  rw [natOfDigits_append, natOfDigits_zeros, Nat.zero_mul, Nat.zero_add]

theorem natOfDigits_append_zeros (digits : List Char) (n : Nat) :
    natOfDigits (digits ++ List.replicate n '0') = natOfDigits digits * 10 ^ n := by
  rw [natOfDigits_append, natOfDigits_zeros, Nat.add_zero, List.length_replicate]

/-- What is dropped from the end are zeros. -/
theorem exists_dropTrailingZeros (digits : List Char) :
    ∃ n, digits = dropTrailingZeros digits ++ List.replicate n '0' := by
  refine ⟨(digits.reverse.takeWhile (· == '0')).length, ?_⟩
  have hzeros : digits.reverse.takeWhile (· == '0')
      = List.replicate (digits.reverse.takeWhile (· == '0')).length '0' := by
    refine List.eq_replicate_iff.mpr ⟨rfl, fun c hc => ?_⟩
    simpa using List.mem_takeWhile_imp hc
  have hsplit : digits.reverse.takeWhile (· == '0') ++ digits.reverse.dropWhile (· == '0')
      = digits.reverse := List.takeWhile_append_dropWhile
  rw [hzeros] at hsplit
  calc digits = digits.reverse.reverse := (List.reverse_reverse digits).symm
    _ = dropTrailingZeros digits
          ++ (List.replicate (digits.reverse.takeWhile (· == '0')).length '0').reverse := by
        rw [← hsplit, List.reverse_append, hsplit]
        rfl
    _ = _ := by rw [List.reverse_replicate]

/-! ## Digits as they are written -/

/-- Digits without a needless zero at the front. -/
structure LeadingDigits (digits : List Char) : Prop where
  ne_nil : digits ≠ []
  isDigit : ∀ c ∈ digits, c.isDigit = true
  head_ne_zero : digits.head? ≠ some '0'

theorem leadingDigits_natChars {n : Nat} (hn : 0 < n) : LeadingDigits (natChars n) where
  ne_nil := natChars_ne_nil n
  isDigit := fun _ => isDigit_of_mem_natChars
  head_ne_zero := head?_natChars_ne_zero hn

/-- Dropping the zeros at the end leaves digits of this kind. -/
theorem LeadingDigits.dropTrailingZeros {digits : List Char} (h : LeadingDigits digits) :
    LeadingDigits (dropTrailingZeros digits) := by
  obtain ⟨n, hsplit⟩ := exists_dropTrailingZeros digits
  have hne : Decimal.dropTrailingZeros digits ≠ [] := by
    intro hnil
    rw [hnil, List.nil_append] at hsplit
    have hhead := h.head_ne_zero
    cases n with
    | zero => exact h.ne_nil hsplit
    | succ n =>
        rw [hsplit] at hhead
        exact hhead rfl
  refine ⟨hne, fun c hc => h.isDigit c ?_, fun hzero => h.head_ne_zero ?_⟩
  · rw [hsplit]
    exact List.mem_append_left _ hc
  · rw [hsplit, List.head?_append_of_ne_nil _ hne]
    exact hzero

end Specimen.Decimal
