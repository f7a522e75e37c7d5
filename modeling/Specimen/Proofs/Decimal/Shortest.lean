import Specimen.Proofs.Binary64.Nearest
import Specimen.Proofs.Decimal.Digits

/-!
# The shortest decimal is one of the double

The decimal that `shortest x` gives lies in the interval of `x`, so that it rounds to `x`
(`owns_shortest`). The search cannot come to its end without a hit: on the grid of seventeen digits
the distance of two points is less than a unit of the last place of `x`, and less than half of it
where the interval is narrower, so one of the two points around `|x|` lies in the interval
(`owns_gridBelow_or`).
-/

namespace Specimen.Decimal

open Binary64

/-! ## The interval as integers -/

section Interval

variable (x : Float)

theorem unit_pos : 0 < (roundingInterval x).unit :=
  Nat.mul_pos (by decide) (denominator_pos x)

/-- The numerators of the interval are counted in quarters of the unit of the last place. -/
theorem quarters_div_unit (n : Nat) :
    ((n * Nat.pow 2 (exponent x).toNat : Nat) / (roundingInterval x).unit : ℚ)
      = n / 4 * 2 ^ exponent x := by
  rw [zpow_eq_div (by norm_num) (exponent x)]
  simp only [roundingInterval, denominator, Nat.pow_eq]
  push_cast
  field_simp

theorem value_div_unit :
    ((roundingInterval x).value / (roundingInterval x).unit : ℚ) = mantissa x * 2 ^ exponent x := by
  have hquarters := quarters_div_unit x (4 * mantissa x)
  rw [show (roundingInterval x).value = 4 * mantissa x * Nat.pow 2 (exponent x).toNat from rfl,
    hquarters]
  push_cast
  ring

theorem high_div_unit :
    ((roundingInterval x).high / (roundingInterval x).unit : ℚ)
      = (mantissa x + 1 / 2) * 2 ^ exponent x := by
  have hquarters := quarters_div_unit x (4 * mantissa x + 2)
  rw [show (roundingInterval x).high = (4 * mantissa x + 2) * Nat.pow 2 (exponent x).toNat from rfl,
    hquarters]
  push_cast
  ring

theorem narrow_iff :
    (fractionField x = 0 ∧ 1 < exponentField x) ↔ (mantissa x = fractionCount ∧ 1 ≤ place x) := by
  have hfraction : fractionField x < fractionCount := Nat.mod_lt _ (by decide)
  unfold mantissa place
  split <;> omega

variable {x}

theorem low_div_unit (hzero : mantissa x ≠ 0) :
    ((roundingInterval x).low / (roundingInterval x).unit : ℚ)
      = (mantissa x - gapBelow x) * 2 ^ exponent x := by
  have hlow : (roundingInterval x).low
      = (4 * mantissa x - if mantissa x = fractionCount ∧ 1 ≤ place x then 1 else 2)
          * Nat.pow 2 (exponent x).toNat := by
    simp only [roundingInterval, narrow_iff, decide_eq_true_eq]
  rw [hlow, quarters_div_unit, Nat.cast_sub (by split <;> omega)]
  unfold gapBelow
  split <;> push_cast <;> ring

/-- The decimals that the interval contains are those that the double owns. -/
theorem contains_iff_owns (hzero : mantissa x ≠ 0) (point : Nat) (e : Int) :
    (roundingInterval x).contains point e = true ↔ Owns x (point * 10 ^ e) := by
  have hunit : (0 : ℚ) < (roundingInterval x).unit := by exact_mod_cast unit_pos x
  have hten : (0 : ℚ) < 10 ^ (-e).toNat := by positivity
  have hclosed : ((roundingInterval x).closed = true) = (mantissa x % 2 = 0) := by
    simp [roundingInterval]
  rw [Owns, ← low_div_unit hzero, ← high_div_unit, zpow_eq_div (by norm_num) e, ← mul_div_assoc,
    ← hclosed, Within, div_le_div_iff₀ hunit hten, div_le_div_iff₀ hten hunit, Ne, Ne,
    div_eq_div_iff hunit.ne' hten.ne', div_eq_div_iff hten.ne' hunit.ne']
  unfold RoundingInterval.contains
  norm_cast
  simp only [Nat.pow_eq]
  cases (roundingInterval x).closed with
  | true => simp
  | false => simp [lt_iff_le_and_ne, and_assoc, and_left_comm]

end Interval

/-! ## The grids -/

namespace RoundingInterval

variable (i : RoundingInterval) (e : Int)

/-- The last point of the grid of `10 ^ e` that is not above the double. -/
def gridBelow : Nat :=
  i.value * Nat.pow 10 (-e).toNat / (i.unit * Nat.pow 10 e.toNat)

variable {i e}

/-- A point that is taken is in the interval. -/
theorem contains_of_nearestPoint? {point : Nat} (h : i.nearestPoint? e = some point) :
    i.contains point e = true := by
  unfold nearestPoint? at h
  simp only at h
  split at h
  · split at h <;> cases h <;> assumption
  · cases h
    assumption
  · cases h
    assumption
  · cases h

/-- A point is taken if one of the two around the double is in the interval. -/
theorem isSome_nearestPoint?
    (h : i.contains (i.gridBelow e) e = true ∨ i.contains (i.gridBelow e + 1) e = true) :
    (i.nearestPoint? e).isSome = true := by
  unfold gridBelow at h
  unfold nearestPoint?
  simp only
  split
  · split <;> rfl
  · rfl
  · rfl
  · simp_all

/-- The search gives a point in the interval if there is one on a grid that it tries. -/
theorem contains_firstHit {leading : Int} {tries count j : Nat} (hj : j < tries)
    (h : (i.nearestPoint? (leading - (count + j : Nat) + 1)).isSome = true) :
    i.contains (i.firstHit leading tries count).1 (i.firstHit leading tries count).2 = true := by
  induction tries generalizing count j with
  | zero => omega
  | succ tries ih =>
      unfold firstHit
      split
      · rename_i point hpoint
        exact contains_of_nearestPoint? hpoint
      · rename_i hnone
        cases j with
        | zero =>
            rw [Nat.add_zero, hnone] at h
            cases h
        | succ j =>
            rw [Nat.add_succ, ← Nat.succ_add] at h
            exact ih (Nat.lt_of_succ_lt_succ hj) h

/-- The double lies between two neighbours of every grid. -/
theorem gridBelow_bounds (hunit : 0 < i.unit) :
    (i.gridBelow e * 10 ^ e : ℚ) ≤ i.value / i.unit
      ∧ (i.value / i.unit : ℚ) < (i.gridBelow e + 1) * 10 ^ e := by
  have hunit' : (0 : ℚ) < i.unit := by exact_mod_cast hunit
  have hup : (0 : ℚ) < 10 ^ e.toNat := by positivity
  have hdown : (0 : ℚ) < 10 ^ (-e).toNat := by positivity
  have hden : 0 < i.unit * Nat.pow 10 e.toNat := Nat.mul_pos hunit (Nat.pow_pos (by decide))
  have hlow := Nat.div_mul_le_self (i.value * Nat.pow 10 (-e).toNat) (i.unit * Nat.pow 10 e.toNat)
  have hhigh := Nat.lt_div_mul_add (a := i.value * Nat.pow 10 (-e).toNat) hden
  rw [← gridBelow, Nat.pow_eq, Nat.pow_eq] at hlow hhigh
  have hlow : (i.gridBelow e * (i.unit * 10 ^ e.toNat) : ℚ) ≤ i.value * 10 ^ (-e).toNat := by
    exact_mod_cast hlow
  have hhigh : (i.value * 10 ^ (-e).toNat : ℚ)
      < i.gridBelow e * (i.unit * 10 ^ e.toNat) + i.unit * 10 ^ e.toNat := by
    exact_mod_cast hhigh
  rw [zpow_eq_div (by norm_num) e, ← mul_div_assoc, ← mul_div_assoc,
    div_le_div_iff₀ hdown hunit', div_lt_div_iff₀ hunit' hdown]
  constructor <;> linarith

end RoundingInterval

/-- The first digit of a positive quotient is at most the quotient. -/
theorem ten_zpow_leadingExponent_le {num den : Nat} (hnum : 0 < num) (hden : 0 < den) :
    (10 : ℚ) ^ leadingExponent num den ≤ num / den := by
  have hpos : (0 : ℚ) < den := by exact_mod_cast hden
  unfold leadingExponent
  split
  · rename_i hle
    have hquotient : 0 < num / den := Nat.div_pos hle hden
    have hlength : 0 < (digitsOf (num / den)).length := Nat.length_toDigits_pos
    have hpower : (10 : ℚ) ^ ((digitsOf (num / den)).length - 1) ≤ (num / den : Nat) := by
      exact_mod_cast ten_pow_le_of_length hquotient
    calc (10 : ℚ) ^ (((digitsOf (num / den)).length : ℤ) - 1)
        = 10 ^ ((digitsOf (num / den)).length - 1) := by
          rw [← zpow_natCast]
          congr 1
          omega
      _ ≤ (num / den : Nat) := hpower
      _ ≤ num / den := Nat.cast_div_le
  · -- `den / num` is at most the power of ten that its integer part stays below
    obtain ⟨size, hsize⟩ : ∃ n, n = (digitsOf ((den + num - 1) / num - 1)).length := ⟨_, rfl⟩
    have hlt : (den + num - 1) / num - 1 < 10 ^ size := hsize ▸ lt_ten_pow_length _
    have hceil : den ≤ 10 ^ size * num := by
      have hle : (den + num - 1) / num ≤ 10 ^ size := by omega
      have := (Nat.div_le_iff_le_mul_add_pred hnum).mp hle
      rw [Nat.mul_comm num] at this
      omega
    rw [← hsize, zpow_neg, zpow_natCast, le_div_iff₀ hpos, inv_mul_le_iff₀ (by positivity)]
    exact_mod_cast hceil

/-- One of the two points around a double is in its interval, on a grid whose distance is at most
the part of the double that seventeen digits leave. -/
theorem owns_gridBelow_or {x : Float} {e : Int}
    (hgrid : (10 : ℚ) ^ e * 10 ^ 16 ≤ mantissa x * 2 ^ exponent x) :
    Owns x ((roundingInterval x).gridBelow e * 10 ^ e)
      ∨ Owns x (((roundingInterval x).gridBelow e + 1 : Nat) * 10 ^ e) := by
  obtain ⟨hbelow, habove⟩ := RoundingInterval.gridBelow_bounds (e := e) (unit_pos x)
  rw [value_div_unit] at hbelow habove
  have hunit := two_zpow_pos (exponent x)
  have hstep := ten_zpow_pos e
  have hmantissa : (mantissa x + 1 : ℚ) ≤ 2 * fractionCount := by exact_mod_cast mantissa_lt x
  have hcount : (fractionCount : ℚ) = 4503599627370496 := by norm_num [fractionCount]
  rw [hcount] at hmantissa
  by_cases hnarrow : mantissa x = fractionCount ∧ 1 ≤ place x
  · -- the upper point, less than half a unit above
    right
    have hgap := gapBelow_pos x
    have hpower : (mantissa x : ℚ) = 4503599627370496 := by rw [hnarrow.1, hcount]
    rw [hpower] at hbelow habove hgrid
    rw [Owns, hpower]
    push_cast
    exact .of_lt (by nlinarith) (by nlinarith)
  · have hgap : gapBelow x = 1 / 2 := if_neg hnarrow
    rw [Owns, Owns, hgap]
    by_cases hnear : (mantissa x - 1 / 2) * 2 ^ exponent x
        < ((roundingInterval x).gridBelow e : ℚ) * 10 ^ e
    · exact .inl (.of_lt hnear (by nlinarith))
    · right
      push_cast
      exact .of_lt (by nlinarith) (by nlinarith)

/-! ## The shortest decimal -/

/-- The number that a decimal stands for. -/
def Scientific.value (d : Scientific) : ℚ :=
  natOfDigits d.digits * 10 ^ (d.exponent + 1 - d.digits.length)

/-- What the search for the shortest decimal gives: a point and the exponent of its grid. -/
def foundPoint (x : Float) : Nat × Int :=
  let i := roundingInterval x
  i.firstHit (leadingExponent i.value i.unit) 17 1

variable {x : Float} (hzero : mantissa x ≠ 0)
include hzero

theorem owns_foundPoint : Owns x ((foundPoint x).1 * 10 ^ (foundPoint x).2) := by
  obtain ⟨i, hi⟩ : ∃ i, i = roundingInterval x := ⟨_, rfl⟩
  obtain ⟨leading, hleading⟩ : ∃ l, l = leadingExponent i.value i.unit := ⟨_, rfl⟩
  have hpos : 0 < i.value := by
    rw [hi]
    exact Nat.mul_pos (Nat.mul_pos (by decide) (Nat.pos_of_ne_zero hzero))
      (Nat.pow_pos (by decide))
  have hfirst : (10 : ℚ) ^ leading ≤ i.value / i.unit := by
    rw [hleading]
    exact ten_zpow_leadingExponent_le hpos (hi ▸ unit_pos x)
  have hgrid : (10 : ℚ) ^ (leading - 16) * 10 ^ 16 ≤ mantissa x * 2 ^ exponent x := by
    calc (10 : ℚ) ^ (leading - 16) * 10 ^ 16
        = 10 ^ leading := by
          rw [← zpow_natCast, ← zpow_add₀ (by norm_num)]
          congr 1
          push_cast
          ring
      _ ≤ i.value / i.unit := hfirst
      _ = mantissa x * 2 ^ exponent x := by rw [hi, value_div_unit]
  have hseventeen : (i.nearestPoint? (leading - (1 + 16 : Nat) + 1)).isSome = true := by
    have hexponent : leading - (1 + 16 : Nat) + 1 = leading - 16 := by
      push_cast
      ring
    rw [hexponent, hi]
    apply RoundingInterval.isSome_nearestPoint?
    rw [contains_iff_owns hzero, contains_iff_owns hzero]
    exact owns_gridBelow_or hgrid
  rw [← contains_iff_owns hzero, foundPoint]
  simp only [← hi, ← hleading]
  exact RoundingInterval.contains_firstHit (by decide) hseventeen

theorem foundPoint_pos : 0 < (foundPoint x).1 := by
  refine Nat.pos_of_ne_zero fun hnone => ?_
  have hpos := (owns_foundPoint hzero).pos hzero
  rw [hnone, Nat.cast_zero, zero_mul] at hpos
  exact lt_irrefl _ hpos

/-- The digits of the shortest decimal are written without a needless zero. -/
theorem leadingDigits_shortest : LeadingDigits (shortest x).digits :=
  (leadingDigits_natChars (foundPoint_pos hzero)).dropTrailingZeros

omit hzero in
/-- Dropping zeros changes the digits and not the number. -/
theorem value_shortest : (shortest x).value = (foundPoint x).1 * 10 ^ (foundPoint x).2 := by
  obtain ⟨digits, hdigits⟩ : ∃ ds, ds = digitsOf (foundPoint x).1 := ⟨_, rfl⟩
  obtain ⟨zeros, hsplit⟩ := exists_dropTrailingZeros digits
  have hnumber : (foundPoint x).1 = natOfDigits (dropTrailingZeros digits) * 10 ^ zeros := by
    rw [← natOfDigits_append_zeros, ← hsplit, hdigits]
    exact (natOfDigits_natChars _).symm
  have hlength : digits.length = (dropTrailingZeros digits).length + zeros := by
    conv_lhs => rw [hsplit]
    rw [List.length_append, List.length_replicate]
  calc (shortest x).value
      = natOfDigits (dropTrailingZeros digits)
          * 10 ^ ((foundPoint x).2 + digits.length - 1 + 1
            - (dropTrailingZeros digits).length) := by
        rw [hdigits]
        rfl
    _ = natOfDigits (dropTrailingZeros digits) * 10 ^ (zeros + (foundPoint x).2) := by
        rw [hlength]
        congr 2
        push_cast
        ring
    _ = (foundPoint x).1 * 10 ^ (foundPoint x).2 := by
        rw [hnumber, zpow_add₀ (by norm_num), zpow_natCast]
        push_cast
        ring

/-- The shortest decimal of a double rounds to the double. -/
theorem owns_shortest : Owns x (shortest x).value := by
  rw [value_shortest]
  exact owns_foundPoint hzero

end Specimen.Decimal
