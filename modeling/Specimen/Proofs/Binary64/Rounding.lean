import Specimen.Proofs.Binary64.Value

/-!
# Correct rounding

`RoundsTo` says which double is the right one for a rational number: no finite double is nearer,
of two equally near ones the mantissa is even, and from half a unit of the last place above the
greatest double on it is infinity. The conversions round in this way: `roundsTo_ofQuotient`,
`roundsTo_ofDecimal`.

The scale of a number splits the doubles in two. Those at the scale or above are multiples of its
unit, where the nearest integer decides; those below are all below the smallest mantissa that has
all its bits, which is a multiple as well (`OnGrid.nearest`).
-/

namespace Specimen.Binary64

/-- From this magnitude on a number is rounded to infinity. It is as far above the greatest double
as that one's predecessor would be below, by half a unit of the last place. -/
def overflow : ℚ :=
  (2 * fractionCount - 1 / 2) * 2 ^ (971 : ℤ)

/-- The number of a sign and a magnitude. -/
def signed (negative : Bool) (v : ℚ) : ℚ :=
  (if negative then -1 else 1) * v

/-- The double is the right one for the number of a sign and a magnitude. -/
structure RoundsTo (negative : Bool) (v : ℚ) (x : Float) : Prop where
  sign : isNegative x = negative
  isFinite_iff : x.isFinite = true ↔ v < overflow
  infinite : overflow ≤ v → magnitudeWord x = infinityWord
  nearest : v < overflow → ∀ y : Float, y.isFinite = true →
    |value x - signed negative v| ≤ |value y - signed negative v|
  even : v < overflow → ∀ y : Float, y.isFinite = true → value y ≠ value x →
    |value y - signed negative v| = |value x - signed negative v| → mantissa x % 2 = 0

/-! ## The grid of a number -/

/-- The unit of the last place at a biased scale. -/
def gridUnit (place : Nat) : ℚ :=
  2 ^ ((place : ℤ) - 1074)

/-- The scale is the one of the number, and at this scale the number rounds to the mantissa. -/
structure OnGrid (v : ℚ) (place mantissa : Nat) : Prop where
  nonneg : 0 ≤ v
  low : place = 0 ∨ fractionCount * gridUnit place ≤ v
  high : v < 2 * fractionCount * gridUnit place
  near : |mantissa * gridUnit place - v| ≤ gridUnit place / 2
  even : |mantissa * gridUnit place - v| = gridUnit place / 2 → mantissa % 2 = 0

theorem gridUnit_pos (place : Nat) : 0 < gridUnit place :=
  two_zpow_pos _

theorem gridUnit_succ (place : Nat) : gridUnit (place + 1) = 2 * gridUnit place := by
  rw [gridUnit, gridUnit, ← two_zpow_add_one]
  congr 1
  push_cast
  ring

theorem gridUnit_mono {place place' : Nat} (h : place ≤ place') :
    gridUnit place ≤ gridUnit place' :=
  two_zpow_le (by omega)

theorem two_zpow_exponent (x : Float) : (2 : ℚ) ^ exponent x = gridUnit (place x) := by
  rw [gridUnit, exponent_eq]

section Integers

variable {v : ℚ} {m k : Nat}

/-- Two integers are not both close to a number. -/
theorem one_le_abs_sub_add (hk : k ≠ m) : (1 : ℚ) ≤ |k - v| + |m - v| := by
  have hapart : (1 : ℚ) ≤ |(k : ℚ) - m| := by
    have hint : (1 : ℤ) ≤ |(k : ℤ) - m| := Int.one_le_abs (by omega)
    exact_mod_cast hint
  calc (1 : ℚ) ≤ |(k : ℚ) - m| := hapart
    _ ≤ |k - v| + |v - m| := abs_sub_le _ _ _
    _ = |k - v| + |m - v| := by rw [abs_sub_comm v]

/-- What is at most half a unit away is nearest. -/
theorem abs_sub_le_of_half (h : |m - v| ≤ 1 / 2) : |m - v| ≤ |k - v| := by
  by_cases hk : k = m
  · rw [hk]
  · have := one_le_abs_sub_add (v := v) hk
    linarith

/-- Another integer is equally near only if both are half a unit away. -/
theorem eq_half_of_abs_sub_eq (h : |m - v| ≤ 1 / 2) (hk : k ≠ m) (hsame : |k - v| = |m - v|) :
    |m - v| = 1 / 2 := by
  have := one_le_abs_sub_add (v := v) hk
  linarith

end Integers

namespace OnGrid

variable {v : ℚ} {place mantissa : Nat} {x y : Float}

theorem mantissa_le (h : OnGrid v place mantissa) : mantissa ≤ 2 * fractionCount := by
  have hunit := gridUnit_pos place
  have hnear := (abs_le.mp h.near).2
  have hhigh := h.high
  have hlt : (mantissa * gridUnit place : ℚ) < (2 * fractionCount + 1) * gridUnit place := by
    linarith
  have hlt : (mantissa : ℚ) < 2 * fractionCount + 1 := lt_of_mul_lt_mul_right hlt hunit.le
  exact Nat.lt_succ_iff.mp (by exact_mod_cast hlt)

/-- Above the smallest scale the mantissa has all its bits. -/
theorem le_mantissa (h : OnGrid v place mantissa) (hplace : 1 ≤ place) :
    fractionCount ≤ mantissa := by
  have hunit := gridUnit_pos place
  have hnear := (abs_le.mp h.near).1
  have hlow := h.low.resolve_left (by omega)
  have hlt : (fractionCount * gridUnit place : ℚ) < (mantissa + 1) * gridUnit place := by linarith
  have hlt : (fractionCount : ℚ) < mantissa + 1 := lt_of_mul_lt_mul_right hlt hunit.le
  exact Nat.lt_succ_iff.mp (by exact_mod_cast hlt)

/-- A double with the word of the scale and the mantissa has their magnitude. When rounding has
carried into the next power of two, the double has the next scale. -/
theorem magnitude_eq (h : OnGrid v place mantissa)
    (hword : magnitudeWord x = place * fractionCount + mantissa) :
    (Binary64.mantissa x * 2 ^ exponent x : ℚ) = mantissa * gridUnit place
      ∧ Binary64.mantissa x % 2 = mantissa % 2 := by
  have hle := h.mantissa_le
  have hge := h.le_mantissa
  have hlt := mantissa_lt x
  have hfull := @fractionCount_le_mantissa x
  rw [two_zpow_exponent]
  rcases Nat.lt_or_eq_of_le hle with hbelow | hcarry
  · obtain ⟨hplace, hmantissa⟩ : Binary64.place x = place ∧ Binary64.mantissa x = mantissa := by
      unfold magnitudeWord fractionCount at *
      omega
    rw [hplace, hmantissa]
    exact ⟨rfl, rfl⟩
  · obtain ⟨hplace, hmantissa⟩ :
        Binary64.place x = place + 1 ∧ Binary64.mantissa x = fractionCount := by
      unfold magnitudeWord fractionCount at *
      omega
    rw [hplace, hmantissa, hcarry, gridUnit_succ]
    constructor
    · push_cast
      ring
    · rfl

/-- A double of a lower scale is below all that have the scale of the number and all bits. -/
theorem lt_of_place_lt (h : OnGrid v place mantissa) (hplace : Binary64.place y < place) :
    (Binary64.mantissa y * 2 ^ exponent y : ℚ) < fractionCount * gridUnit place
      ∧ fractionCount * gridUnit place ≤ v := by
  refine ⟨?_, h.low.resolve_left (by omega)⟩
  have hunit := gridUnit_pos (Binary64.place y)
  have hmantissa : (Binary64.mantissa y : ℚ) < 2 * fractionCount := by exact_mod_cast mantissa_lt y
  have hcount : (0 : ℚ) ≤ fractionCount := by positivity
  calc (Binary64.mantissa y * 2 ^ exponent y : ℚ)
      = Binary64.mantissa y * gridUnit (Binary64.place y) := by rw [two_zpow_exponent]
    _ < 2 * fractionCount * gridUnit (Binary64.place y) := mul_lt_mul_of_pos_right hmantissa hunit
    _ = fractionCount * gridUnit (Binary64.place y + 1) := by rw [gridUnit_succ]; ring
    _ ≤ fractionCount * gridUnit place := mul_le_mul_of_nonneg_left (gridUnit_mono hplace) hcount

/-- A double of a higher scale is a multiple of the unit. -/
theorem exists_multiple (hplace : place ≤ Binary64.place y) :
    ∃ k : Nat, (Binary64.mantissa y * 2 ^ exponent y : ℚ) = k * gridUnit place := by
  refine ⟨Binary64.mantissa y * 2 ^ (Binary64.place y - place), ?_⟩
  have hpower : gridUnit (Binary64.place y) = 2 ^ (Binary64.place y - place) * gridUnit place := by
    rw [gridUnit, gridUnit, ← zpow_natCast, ← zpow_add₀ (by norm_num)]
    congr 1
    omega
  rw [two_zpow_exponent, hpower]
  push_cast
  ring

/-- In units of the last place. -/
theorem abs_sub_eq (k : Nat) (v : ℚ) (place : Nat) :
    |k * gridUnit place - v| = |k - v / gridUnit place| * gridUnit place := by
  have hunit := gridUnit_pos place
  rw [← abs_of_pos hunit, ← abs_mul, abs_of_pos hunit, sub_mul, div_mul_cancel₀ _ hunit.ne']

theorem near_units (h : OnGrid v place mantissa) : |mantissa - v / gridUnit place| ≤ 1 / 2 := by
  have hnear := h.near
  rw [abs_sub_eq] at hnear
  exact le_of_mul_le_mul_right (by linarith) (gridUnit_pos place)

/-- No multiple of the unit is nearer. -/
theorem le_multiple (h : OnGrid v place mantissa) (k : Nat) :
    |mantissa * gridUnit place - v| ≤ |k * gridUnit place - v| := by
  rw [abs_sub_eq, abs_sub_eq]
  exact mul_le_mul_of_nonneg_right (abs_sub_le_of_half h.near_units) (gridUnit_pos place).le

/-- Among the magnitudes of doubles none is nearer. -/
theorem nearest (h : OnGrid v place mantissa) (y : Float) :
    |mantissa * gridUnit place - v| ≤ |Binary64.mantissa y * 2 ^ exponent y - v| := by
  rcases Nat.lt_or_ge (Binary64.place y) place with hplace | hplace
  · obtain ⟨hbelow, hreach⟩ := h.lt_of_place_lt hplace
    have hleast := h.le_multiple fractionCount
    rw [abs_of_nonpos (sub_nonpos.mpr hreach)] at hleast
    rw [abs_of_neg (by linarith : Binary64.mantissa y * 2 ^ exponent y - v < 0)]
    linarith
  · obtain ⟨k, hk⟩ := exists_multiple hplace
    rw [hk]
    exact h.le_multiple k

/-- Another magnitude is equally near only if the mantissa is even. -/
theorem even_of_eq (h : OnGrid v place mantissa)
    (hother : (Binary64.mantissa y * 2 ^ exponent y : ℚ) ≠ mantissa * gridUnit place)
    (hsame : |Binary64.mantissa y * 2 ^ exponent y - v| = |mantissa * gridUnit place - v|) :
    mantissa % 2 = 0 := by
  have hunit := gridUnit_pos place
  rcases Nat.lt_or_ge (Binary64.place y) place with hplace | hplace
  · -- a lower double is further away than the smallest one that has all bits
    obtain ⟨hbelow, hreach⟩ := h.lt_of_place_lt hplace
    have hleast := h.le_multiple fractionCount
    rw [abs_of_nonpos (sub_nonpos.mpr hreach)] at hleast
    rw [abs_of_neg (by linarith : Binary64.mantissa y * 2 ^ exponent y - v < 0)] at hsame
    linarith
  · obtain ⟨k, hk⟩ := exists_multiple hplace
    rw [hk, abs_sub_eq, abs_sub_eq] at hsame
    have hne : k ≠ mantissa := by
      rintro rfl
      exact hother hk
    apply h.even
    rw [abs_sub_eq, eq_half_of_abs_sub_eq h.near_units hne (mul_right_cancel₀ hunit.ne' hsame)]
    ring

/-- At the scale of the greatest doubles the mantissa is carried exactly where the numbers
overflow. -/
theorem mantissa_eq_iff (h : OnGrid v 2045 mantissa) :
    mantissa = 2 * fractionCount ↔ overflow ≤ v := by
  have hoverflow : overflow = (2 * fractionCount - 1 / 2) * gridUnit 2045 := rfl
  have hunit := gridUnit_pos 2045
  have hnear := abs_le.mp h.near
  rw [hoverflow]
  constructor
  · rintro rfl
    push_cast at hnear
    linarith
  · intro hreach
    by_contra hne
    -- the greatest mantissa is odd, so the middle above it belongs to infinity
    have hlt : mantissa + 1 ≤ 2 * fractionCount := by
      have hle := h.mantissa_le
      omega
    have hltQ : (mantissa + 1 : ℚ) ≤ 2 * fractionCount := by exact_mod_cast hlt
    have hscaled := mul_le_mul_of_nonneg_right hltQ hunit.le
    have hmiddle : v - mantissa * gridUnit 2045 = gridUnit 2045 / 2 := by linarith
    have heven := h.even (by rw [abs_sub_comm, hmiddle, abs_of_pos (half_pos hunit)])
    have hsucc : ((mantissa + 1 : Nat) : ℚ) * gridUnit 2045
        = (2 * fractionCount : Nat) * gridUnit 2045 := by
      push_cast
      linarith
    have hsucc := mul_right_cancel₀ hunit.ne' hsucc
    have hsucc : mantissa + 1 = 2 * fractionCount := by exact_mod_cast hsucc
    unfold fractionCount at hsucc
    omega

/-- The word reaches the one of infinity exactly where the numbers overflow. -/
theorem infinityWord_le_iff (h : OnGrid v place mantissa) :
    infinityWord ≤ place * fractionCount + mantissa ↔ overflow ≤ v := by
  have hle := h.mantissa_le
  have hge := h.le_mantissa
  have hcount : (fractionCount : ℚ) = 4503599627370496 := by norm_num [fractionCount]
  have hoverflow : overflow = (2 * fractionCount - 1 / 2) * gridUnit 2045 := rfl
  have hlast := gridUnit_pos 2045
  rcases lt_trichotomy place 2045 with hplace | rfl | hplace
  · -- all numbers of a lower scale are too small
    refine iff_of_false (by unfold infinityWord fractionCount at *; omega) (not_le.mpr ?_)
    rw [hoverflow]
    have hmono : 2 * gridUnit place ≤ gridUnit 2045 := by
      rw [← gridUnit_succ]
      exact gridUnit_mono hplace
    have hhigh := h.high
    rw [hcount] at hhigh ⊢
    linarith
  · rw [← h.mantissa_eq_iff]
    unfold infinityWord fractionCount at *
    omega
  · refine iff_of_true ?_ ?_
    · have := hge (by omega)
      unfold infinityWord fractionCount at *
      omega
    · have hmono : 2 * gridUnit 2045 ≤ gridUnit place := by
        rw [← gridUnit_succ]
        exact gridUnit_mono hplace
      have hlow := h.low.resolve_left (by omega)
      rw [hoverflow]
      rw [hcount] at hlow ⊢
      linarith

end OnGrid

/-! ## Rounding a quotient -/

/-- The word of a quotient is the one of its scale and its mantissa, unless that is too large. -/
theorem exists_onGrid (num : Nat) {den : Nat} (hden : 0 < den) :
    ∃ place mantissa, OnGrid (num / den) place mantissa
      ∧ nearestWord num den = min infinityWord (place * fractionCount + mantissa) := by
  unfold nearestWord
  split
  · rename_i hnum
    refine ⟨0, 0, ?_, rfl⟩
    have hunit := gridUnit_pos 0
    have hcount : (0 : ℚ) < fractionCount := by norm_num [fractionCount]
    refine ⟨?_, .inl rfl, ?_, ?_, fun _ => rfl⟩ <;> rw [hnum, Nat.cast_zero, zero_div]
    · positivity
    · simpa using (half_pos hunit).le
  · rename_i hnum
    obtain ⟨hleast, hbelow, habove⟩ := scaleOf_spec (Nat.pos_of_ne_zero hnum) hden
    have hpos : 0 < (rescale num den (scaleOf num den)).2 := rescale_pos hden _
    obtain ⟨hnear, heven⟩ := roundHalfEven_spec (rescale num den (scaleOf num den)).1 hpos
    refine ⟨(scaleOf num den + 1074).toNat, _, ?_, rfl⟩
    have hunit : gridUnit (scaleOf num den + 1074).toNat = 2 ^ scaleOf num den := by
      rw [gridUnit]
      congr 1
      omega
    rw [rescale_div, ← hunit] at hnear heven
    have hpos := gridUnit_pos (scaleOf num den + 1074).toNat
    refine ⟨by positivity, ?_, hunit ▸ hbelow, ?_, ?_⟩
    · rcases habove with hsmall | habove
      · left
        omega
      · exact .inr (hunit ▸ habove)
    · rw [OnGrid.abs_sub_eq]
      linarith [mul_le_mul_of_nonneg_right hnear hpos.le]
    · intro htie
      apply heven
      rw [OnGrid.abs_sub_eq] at htie
      exact mul_right_cancel₀ hpos.ne' (by linarith)

/-! ## Doubles of words -/

/-- A double with a minus sign or without one. -/
def withSign (negative : Bool) (x : Float) : Float :=
  if negative then -x else x

/-- The double of a word with a sign. -/
def ofWord (negative : Bool) (w : Nat) : Float :=
  withSign negative (Float.ofBits (UInt64.ofNat w))

theorem word_ofWord (negative : Bool) {w : Nat} (hw : w ≤ infinityWord) :
    word (ofWord negative w) = (if negative then 2 ^ 63 else 0) + w := by
  rcases Nat.lt_or_eq_of_le hw with hw | rfl
  · cases negative with
    | true => exact word_neg_ofBits hw
    | false => exact (word_ofBits hw).trans (Nat.zero_add w).symm
  · cases negative <;> rfl

/-- Sign and word are found again. -/
theorem parts_ofWord (negative : Bool) {w : Nat} (hw : w ≤ infinityWord) :
    isNegative (ofWord negative w) = negative ∧ magnitudeWord (ofWord negative w) = w
      ∧ ((ofWord negative w).isFinite = true ↔ w < infinityWord) := by
  have hword := word_ofWord negative hw
  have hsmall : w < 2 ^ 63 := Nat.lt_of_le_of_lt hw (by decide)
  have hsign : isNegative (ofWord negative w) = negative := by
    unfold isNegative
    rw [hword]
    cases negative with
    | true => simp [UInt64.size]
    | false => simpa [UInt64.size] using hsmall
  have hmagnitude : magnitudeWord (ofWord negative w) = w := by
    have hparts := word_eq (ofWord negative w)
    rw [hsign, hword] at hparts
    omega
  refine ⟨hsign, hmagnitude, fun hfinite => hmagnitude ▸ magnitudeWord_lt hfinite, fun hlt => ?_⟩
  cases negative with
  | true => exact (isFinite_ofBits hlt).2
  | false => exact (isFinite_ofBits hlt).1

section Distances

variable {negative : Bool} {v : ℚ} {y : Float}

/-- From a double of the same sign it is as far as from magnitude to magnitude. -/
theorem abs_value_sub_of_eq (hy : isNegative y = negative) :
    |value y - signed negative v| = |mantissa y * 2 ^ exponent y - v| := by
  rw [value_eq, hy, signed, ← mul_sub, abs_mul]
  cases negative <;> simp

/-- From a double of the other sign it is as far as both magnitudes together. -/
theorem abs_value_sub_of_ne (hnonneg : 0 ≤ v) (hy : isNegative y ≠ negative) :
    |value y - signed negative v| = mantissa y * 2 ^ exponent y + v := by
  have hmagnitude : (0 : ℚ) ≤ mantissa y * 2 ^ exponent y := by positivity
  have hsigned : value y - signed negative v
      = (if negative then 1 else -1) * (mantissa y * 2 ^ exponent y + v) := by
    rw [value_eq, signed, Bool.eq_not_of_ne hy]
    cases negative with
    | false =>
        simp only [Bool.not_false, if_true, if_neg Bool.false_ne_true]
        ring
    | true => simp
  rw [hsigned, abs_mul, abs_of_nonneg (add_nonneg hmagnitude hnonneg)]
  cases negative <;> simp

theorem abs_sub_le_abs_value_sub (hnonneg : 0 ≤ v) (y : Float) :
    |mantissa y * 2 ^ exponent y - v| ≤ |value y - signed negative v| := by
  by_cases hy : isNegative y = negative
  · rw [abs_value_sub_of_eq hy]
  · have hmagnitude : (0 : ℚ) ≤ mantissa y * 2 ^ exponent y := by positivity
    rw [abs_value_sub_of_ne hnonneg hy]
    exact abs_le.mpr ⟨by linarith, by linarith⟩

end Distances

/-- The double with the word of the scale and the mantissa is the right one. -/
theorem OnGrid.roundsTo {v : ℚ} {place mantissa : Nat} (h : OnGrid v place mantissa)
    (negative : Bool) :
    RoundsTo negative v
      (ofWord negative (min infinityWord (place * fractionCount + mantissa))) := by
  obtain ⟨hsign, hmagnitude, hfinite⟩ :=
    parts_ofWord negative (Nat.min_le_left infinityWord (place * fractionCount + mantissa))
  generalize ofWord negative (min infinityWord (place * fractionCount + mantissa)) = x at *
  have hoverflow := h.infinityWord_le_iff
  have hword (hlt : v < overflow) : magnitudeWord x = place * fractionCount + mantissa := by
    rw [hmagnitude, Nat.min_eq_right (not_le.mp (mt hoverflow.mp (not_le.mpr hlt))).le]
  refine ⟨hsign, ?_, ?_, ?_, ?_⟩
  · rw [hfinite, ← not_le, ← not_le, ← hoverflow]
    exact not_congr (le_min_iff.trans (and_iff_right (Nat.le_refl _)))
  · intro hreach
    rw [hmagnitude, Nat.min_eq_left (hoverflow.mpr hreach)]
  · intro hlt y _
    rw [abs_value_sub_of_eq hsign, (h.magnitude_eq (hword hlt)).1]
    exact (h.nearest y).trans (abs_sub_le_abs_value_sub h.nonneg y)
  · intro hlt y _ hne hsame
    obtain ⟨hx, hparity⟩ := h.magnitude_eq (hword hlt)
    rw [hparity]
    rw [abs_value_sub_of_eq hsign, hx] at hsame
    have hnearer := (abs_sub_le_abs_value_sub h.nonneg y).trans hsame.le
    refine h.even_of_eq ?_ (le_antisymm hnearer (h.nearest y))
    intro hequal
    by_cases hy : isNegative y = negative
    · exact hne (by rw [value_eq, value_eq, hy, hsign, hx, hequal])
    · -- only zero is as near as a double of the other sign
      have hzero := h.le_multiple 0
      rw [Nat.cast_zero, zero_mul, zero_sub, abs_neg, abs_of_nonneg h.nonneg] at hzero
      have hmagnitude : (0 : ℚ) ≤ Binary64.mantissa y * 2 ^ exponent y := by positivity
      rw [abs_value_sub_of_ne h.nonneg hy] at hsame
      have hnone : (Binary64.mantissa y * 2 ^ exponent y : ℚ) = 0 := by linarith
      exact hne (by rw [value_eq, value_eq, hx, ← hequal, hnone, mul_zero, mul_zero])

/-- Infinity is right from the overflow on. -/
theorem roundsTo_infinity {v : ℚ} (h : overflow ≤ v) (negative : Bool) :
    RoundsTo negative v (ofWord negative infinityWord) := by
  obtain ⟨hsign, hmagnitude, hfinite⟩ := parts_ofWord negative (Nat.le_refl infinityWord)
  have hnot : ¬v < overflow := not_lt.mpr h
  exact ⟨hsign, hfinite.trans (iff_of_false (Nat.lt_irrefl _) hnot), fun _ => hmagnitude,
    fun hlt => absurd hlt hnot, fun hlt => absurd hlt hnot⟩

/-- Zero is right up to half of the smallest double. -/
theorem roundsTo_zero {v : ℚ} (hnonneg : 0 ≤ v) (h : v < gridUnit 0 / 2) (negative : Bool) :
    RoundsTo negative v (ofWord negative 0) := by
  have hunit := gridUnit_pos 0
  have hcount : (1 : ℚ) ≤ fractionCount := by norm_num [fractionCount]
  have hone := mul_le_mul_of_nonneg_right hcount hunit.le
  have hdistance : |((0 : Nat) : ℚ) * gridUnit 0 - v| = v := by
    rw [Nat.cast_zero, zero_mul, zero_sub, abs_neg, abs_of_nonneg hnonneg]
  have hgrid : OnGrid v 0 0 :=
    ⟨hnonneg, .inl rfl, by linarith, by rw [hdistance]; exact h.le, fun _ => rfl⟩
  exact hgrid.roundsTo negative

/-- The double of a quotient is the right one. -/
theorem roundsTo_ofQuotient (negative : Bool) (num : Nat) {den : Nat} (hden : 0 < den) :
    RoundsTo negative (num / den) (withSign negative (ofQuotient num den)) := by
  obtain ⟨place, mantissa, hgrid, hword⟩ := exists_onGrid num hden
  have hround := hgrid.roundsTo negative
  rw [← hword] at hround
  exact hround

/-- The double of a natural number is the right one. -/
theorem roundsTo_ofInt (n : Nat) : RoundsTo false n (ofInt n) := by
  have hround := roundsTo_ofQuotient false n Nat.one_pos
  rw [Nat.cast_one, div_one] at hround
  have hint : ofInt n = ofQuotient n 1 := by
    rw [ofInt, if_neg (by omega), Int.natAbs_natCast]
  rw [hint]
  exact hround

theorem overflow_le_two_pow : overflow ≤ 2 ^ 1024 := by
  have hcount : (fractionCount : ℚ) = 2 ^ (52 : ℤ) := by norm_num [fractionCount]
  have hpos := two_zpow_pos 971
  calc overflow
      ≤ 2 * fractionCount * 2 ^ (971 : ℤ) := mul_le_mul_of_nonneg_right (by linarith) hpos.le
    _ = 2 ^ ((52 : ℤ) + 971 + 1) := by
        rw [hcount, two_zpow_add_one, zpow_add₀ (by norm_num), mul_assoc]
    _ = 2 ^ 1024 := rfl

/-- The double of a decimal is the right one. -/
theorem roundsTo_ofDecimal (negative : Bool) (digits : Nat) (exponent : ℤ) :
    RoundsTo negative (digits * 10 ^ exponent) (withSign negative (ofDecimal digits exponent)) := by
  have hnonneg : (0 : ℚ) ≤ digits * 10 ^ exponent := mul_nonneg (by positivity) (ten_zpow_pos _).le
  unfold ofDecimal
  split
  · rename_i hzero
    have hround := roundsTo_ofQuotient negative 0 Nat.one_pos
    rw [Nat.cast_zero, zero_div] at hround
    rwa [hzero, Nat.cast_zero, zero_mul]
  rename_i hdigits
  split
  · rename_i hlarge
    exact roundsTo_infinity
      (overflow_le_two_pow.trans (two_pow_lt_decimal (Nat.pos_of_ne_zero hdigits) hlarge).le)
      negative
  split
  · rename_i hsmall
    refine roundsTo_zero hnonneg ?_ negative
    have hunit : gridUnit 0 = 2 ^ (-1074 : ℤ) := rfl
    rw [hunit]
    linarith [decimal_lt_two_zpow hsmall]
  · have hround := roundsTo_ofQuotient negative (digits * Nat.pow 10 exponent.toNat)
      (Nat.pow_pos (n := (-exponent).toNat) (by decide : 0 < 10))
    rw [zpow_eq_div (by norm_num) exponent, ← mul_div_assoc]
    simpa only [Nat.pow_eq, Nat.cast_mul, Nat.cast_pow, Nat.cast_ofNat] using hround

end Specimen.Binary64
