import Specimen.Proofs.Binary64.Nearest

/-!
# The value of a double

A finite double stands for a rational number, its `value`. Doubles are ordered as their values are
(`lt_iff_value_lt`), `floor` and `ceiling` are those of the value, and a whole number of magnitude
at most `2 ^ 53` is the value of its double (`value_ofInt`). Only a small value has digits behind
the point (`value_whole_or_small`).
-/

namespace Specimen.Binary64

open Float.Model Float.Model.UnpackedFloat

/-- The rational number that a finite double stands for. -/
def value (x : Float) : ℚ :=
  numerator x / denominator x

theorem floor_eq_floor_value (x : Float) : floor x = ⌊value x⌋ :=
  (Rat.floor_intCast_div_natCast (numerator x) (denominator x)).symm

theorem ceiling_eq_ceil_value (x : Float) : ceiling x = ⌈value x⌉ :=
  (Rat.ceil_intCast_div_natCast (numerator x) (denominator x)).symm

/-- The value in terms of the sign, the mantissa and the exponent. -/
theorem value_eq (x : Float) :
    value x = (if isNegative x then -1 else 1) * (mantissa x * 2 ^ exponent x) := by
  have hmagnitude : (magnitude x / denominator x : ℚ) = mantissa x * 2 ^ exponent x := by
    rw [zpow_eq_div (by norm_num) (exponent x)]
    simp only [magnitude, denominator, Nat.pow_eq]
    push_cast
    exact mul_div_assoc _ _ _
  rw [← hmagnitude]
  unfold value numerator
  cases isNegative x
  · simp
  · simp [neg_div]

/-! ## Order -/

/-- The sign of a double as its model has it. -/
def sign (x : Float) : Sign :=
  if isNegative x then .negative else .positive

theorem ofBitVec_unpackSign (x : Float) :
    Sign.ofBitVec (@unpackSign Format.binary64 x.toBits.toBitVec) = sign x := by
  have hsign : (@unpackSign Format.binary64 x.toBits.toBitVec).toNat = word x / 2 ^ 63 % 2 :=
    toNat_unpackSign _
  have hword := word_lt x
  unfold sign isNegative Sign.ofBitVec
  by_cases h : UInt64.size / 2 ≤ word x
  · rw [if_neg, decide_eq_true h, if_pos rfl]
    intro hzero
    rw [hzero] at hsign
    simp only [UInt64.size, BitVec.toNat_ofNat] at h hsign
    omega
  · rw [if_pos, decide_eq_false h, if_neg Bool.false_ne_true]
    apply BitVec.eq_of_toNat_eq
    rw [hsign]
    simp only [UInt64.size, BitVec.toNat_ofNat] at h ⊢
    omega

/-- A finite double is taken apart into its sign, its mantissa and its exponent. -/
theorem unpack_of_isFinite {x : Float} (hfinite : x.isFinite = true) :
    UnpackedFloat.unpack Format.binary64 x.toBits.toBitVec
      = if h : mantissa x = 0 then .zero (sign x)
        else .finite (sign x) (mantissa x) (exponent x) (Nat.pos_of_ne_zero h) := by
  have hfield : (@unpackExponent Format.binary64 x.toBits.toBitVec).toNat = exponentField x :=
    toNat_unpackExponent _
  have hfraction : (@unpackMantissa Format.binary64 x.toBits.toBitVec).toNat = fractionField x :=
    toNat_unpackMantissa _
  have hfull : @unpackExponent Format.binary64 x.toBits.toBitVec ≠ -1#11 := by
    intro h
    rw [h] at hfield
    exact (isFinite_iff x).mp hfinite hfield.symm
  have hlt : fractionField x < 2 ^ 52 := Nat.mod_lt _ (by decide)
  unfold UnpackedFloat.unpack
  simp only [if_neg hfull, ofBitVec_unpackSign]
  split
  · -- zero or subnormal
    rename_i hzero
    have hleast : exponentField x = 0 := by rw [← hfield, hzero]; rfl
    have hmantissa : mantissa x = fractionField x := if_pos hleast
    have hexponent : exponent x = -1074 := by simp [exponent, hleast]
    split
    · rename_i hempty
      have : mantissa x = 0 := by rw [hmantissa, ← hfraction, hempty]; rfl
      rw [dif_pos this]
    · rename_i hempty
      have hne : mantissa x ≠ 0 := by
        rw [hmantissa, ← hfraction]
        intro h
        exact hempty (BitVec.eq_of_toNat_eq h)
      rw [dif_neg hne]
      congr 1
      · rw [hmantissa, hfraction]
      · rw [hexponent, hfield, hleast]
        rfl
  · -- normal
    rename_i hzero
    have hleast : exponentField x ≠ 0 := by
      rw [← hfield]
      intro h
      exact hzero (BitVec.eq_of_toNat_eq h)
    have hmantissa : mantissa x = fractionCount + fractionField x := if_neg hleast
    have hne : mantissa x ≠ 0 := by
      rw [hmantissa]
      unfold fractionCount
      omega
    rw [dif_neg hne]
    congr 1
    · rw [hmantissa, BitVec.toNat_append, hfraction, ← Nat.shiftLeft_add_eq_or_of_lt hlt]
      rfl
    · rw [hfield]
      unfold exponent
      simp only [Format.exponentBias]
      omega

/-- The double with the greater exponent has the greater magnitude: its mantissa has
all its bits. -/
theorem magnitude_lt_of_exponent_lt {x y : Float} (h : exponent x < exponent y) :
    (mantissa x * 2 ^ exponent x : ℚ) < mantissa y * 2 ^ exponent y := by
  have hplace : 1 ≤ place y := by
    have hx := exponent_eq x
    have hy := exponent_eq y
    omega
  have hmantissa : (mantissa x : ℚ) < 2 * fractionCount := by exact_mod_cast mantissa_lt x
  have hfull : (fractionCount : ℚ) ≤ mantissa y := by
    exact_mod_cast fractionCount_le_mantissa hplace
  have hunit := two_zpow_pos (exponent x)
  calc (mantissa x * 2 ^ exponent x : ℚ)
      < 2 * fractionCount * 2 ^ exponent x := mul_lt_mul_of_pos_right hmantissa hunit
    _ = fractionCount * 2 ^ (exponent x + 1) := by rw [two_zpow_add_one]; ring
    _ ≤ fractionCount * 2 ^ exponent y :=
        mul_le_mul_of_nonneg_left (two_zpow_le (by omega)) (by positivity)
    _ ≤ mantissa y * 2 ^ exponent y := mul_le_mul_of_nonneg_right hfull (two_zpow_pos _).le

/-- Magnitudes are ordered by their exponents first and then by their mantissas. -/
theorem magnitude_lt_iff (x y : Float) :
    (mantissa x * 2 ^ exponent x : ℚ) < mantissa y * 2 ^ exponent y
      ↔ exponent x < exponent y ∨ (exponent x = exponent y ∧ mantissa x < mantissa y) := by
  rcases lt_trichotomy (exponent x) (exponent y) with h | h | h
  · simp [h, magnitude_lt_of_exponent_lt h]
  · simp [h, two_zpow_pos]
  · simp [h.not_gt, h.ne', (magnitude_lt_of_exponent_lt h).le]

theorem magnitude_pos {x : Float} (h : mantissa x ≠ 0) : (0 : ℚ) < mantissa x * 2 ^ exponent x :=
  mul_pos (by exact_mod_cast Nat.pos_of_ne_zero h) (two_zpow_pos _)

/-- Finite doubles are ordered as their values are. -/
theorem lt_iff_value_lt {x y : Float} (hx : x.isFinite = true) (hy : y.isFinite = true) :
    x < y ↔ value x < value y := by
  have hlt : x < y ↔ ((UnpackedFloat.unpack Format.binary64 x.toBits.toBitVec).compare
      (UnpackedFloat.unpack Format.binary64 y.toBits.toBitVec) == some .lt) = true :=
    decide_eq_true_iff
  rw [hlt, unpack_of_isFinite hx, unpack_of_isFinite hy, value_eq, value_eq]
  unfold sign
  by_cases hxzero : mantissa x = 0
  · by_cases hyzero : mantissa y = 0
    · cases isNegative x <;> cases isNegative y <;> simp [hxzero, hyzero, UnpackedFloat.compare]
    · have hpos := magnitude_pos hyzero
      cases isNegative x <;> cases isNegative y <;>
        simp [hxzero, hyzero, UnpackedFloat.compare, hpos, hpos.le]
  · have hpos := magnitude_pos hxzero
    by_cases hyzero : mantissa y = 0
    · cases isNegative x <;> cases isNegative y <;>
        simp [hxzero, hyzero, UnpackedFloat.compare, hpos, hpos.le]
    · have hpos' := magnitude_pos hyzero
      cases isNegative x <;> cases isNegative y <;>
        simp only [hxzero, hyzero, dite_false, if_true, if_false, Bool.false_eq_true, one_mul,
          neg_one_mul, neg_lt_neg_iff, UnpackedFloat.compare, Ordering.swap_eq_lt, beq_iff_eq,
          Option.some.injEq]
      case false.false =>
        rw [magnitude_lt_iff, Ordering.then_eq_lt, compare_lt_iff_lt, compare_eq_iff_eq,
          compare_lt_iff_lt]
      case false.true => simp; linarith
      case true.false => simp; linarith
      case true.true =>
        rw [magnitude_lt_iff, Ordering.then_eq_gt, compare_gt_iff_gt, compare_eq_iff_eq,
          compare_gt_iff_gt, eq_comm (a := exponent y)]

/-! ## Whole values -/

theorem value_ofSign {negative : Bool} {n : Nat} (hn : n ≤ wholeLimit) :
    value (ofSign negative n) = (if negative then -1 else 1) * n := by
  by_cases hzero : n = 0
  · subst hzero
    simp [value_eq, mantissa_ofSign_zero]
  by_cases hlimit : n = wholeLimit
  · subst hlimit
    obtain ⟨hmantissa, hexponent⟩ := parts_ofSign_wholeLimit negative
    rw [value_eq, isNegative_ofSign hn, hmantissa, hexponent, zpow_one, wholeLimit, Nat.cast_mul,
      Nat.cast_ofNat, mul_comm (fractionCount : ℚ)]
  obtain ⟨k, hk, hlow, hhigh⟩ := exists_log2 hzero (Nat.lt_of_le_of_ne hn hlimit)
  obtain ⟨hmantissa, hexponent⟩ := @parts_ofSign negative n k hk hlow hhigh
  rw [value_eq, isNegative_ofSign hn, hmantissa, hexponent]
  have hpower : ((2 ^ (52 - k) : Nat) : ℚ) * 2 ^ ((k : Int) - 52) = 1 := by
    rw [Nat.cast_pow, Nat.cast_ofNat, ← zpow_natCast, ← zpow_add₀ (by norm_num), Nat.cast_sub hk]
    simp
  rw [Nat.cast_mul, mul_assoc (n : ℚ), hpower, mul_one]

/-- A whole number of small magnitude is the value of its double. -/
theorem value_ofInt {n : Int} (hn : n.natAbs ≤ wholeLimit) : value (ofInt n) = n := by
  rw [ofInt_eq_ofSign, value_ofSign hn]
  by_cases h : n < 0
  · have habs : (n.natAbs : Int) = -n := by omega
    rw [decide_eq_true h, if_pos rfl, ← Int.cast_natCast, habs, Int.cast_neg, neg_one_mul, neg_neg]
  · have habs : (n.natAbs : Int) = n := by omega
    rw [decide_eq_false h, if_neg Bool.false_ne_true, ← Int.cast_natCast, habs, one_mul]

/-- A value is whole, or it is so small that its double has bits behind the point. -/
theorem value_whole_or_small (x : Float) :
    (∃ n : Int, value x = n) ∨ |value x| < fractionCount := by
  rcases le_or_gt 0 (exponent x) with h | h
  · left
    have hdenominator : denominator x = 1 := by
      rw [denominator, Int.toNat_eq_zero.mpr (by omega)]
    exact ⟨numerator x, by rw [value, hdenominator, Nat.cast_one, div_one]⟩
  · right
    have hmantissa : (mantissa x : ℚ) < 2 * fractionCount := by exact_mod_cast mantissa_lt x
    have hunit := two_zpow_pos (exponent x)
    have hhalf : (2 : ℚ) ^ exponent x ≤ 2 ^ (-1 : ℤ) := two_zpow_le (by omega)
    have habs : |value x| = mantissa x * 2 ^ exponent x := by
      have hnonneg : (0 : ℚ) ≤ mantissa x * 2 ^ exponent x := by positivity
      rw [value_eq, abs_mul, abs_of_nonneg hnonneg]
      cases isNegative x <;> simp
    calc |value x| = mantissa x * 2 ^ exponent x := habs
      _ < 2 * fractionCount * 2 ^ exponent x := mul_lt_mul_of_pos_right hmantissa hunit
      _ ≤ 2 * fractionCount * 2 ^ (-1 : ℤ) := mul_le_mul_of_nonneg_left hhalf (by positivity)
      _ = fractionCount := by rw [zpow_neg_one]; ring

theorem value_nonpos {x : Float} (h : isNegative x = true) : value x ≤ 0 := by
  have hmagnitude : (0 : ℚ) ≤ mantissa x * 2 ^ exponent x := by positivity
  rw [value_eq, h, if_pos rfl]
  linarith

/-- Without a sign, rounding is to the nearest whole number, a half going up. -/
theorem natCast_roundedMagnitude {x : Float} (h : isNegative x = false) :
    (roundedMagnitude x : Int) = ⌊value x + 1 / 2⌋ := by
  have hpos : (0 : ℚ) < denominator x := by exact_mod_cast denominator_pos x
  have hhalf : value x + 1 / 2
      = ((2 * magnitude x + denominator x : Nat) : ℤ) / ((2 * denominator x : Nat) : ℚ) := by
    rw [value, numerator, h, if_neg Bool.false_ne_true]
    push_cast
    field_simp
  rw [hhalf, Rat.floor_intCast_div_natCast]
  rfl

end Specimen.Binary64
