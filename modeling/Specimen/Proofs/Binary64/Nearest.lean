import Specimen.Proofs.Binary64.Word

/-!
# Rounding to the nearest double

The rounding of `Specimen.Binary64.nearestWord` in terms of rational numbers. A finite double `x`
other than zero owns an interval around its magnitude: half a unit of its last place in both
directions, but only a quarter downwards from a power of two, where the doubles stand closer. The
ends belong to it if the mantissa is even (`Owns`). Every quotient in that interval rounds to `x`:
`nearestWord_of_owns`.
-/

namespace Specimen.Binary64

/-- `v` lies between `low` and `high`; the ends count if `closed`. -/
def Within (closed : Prop) (low v high : ℚ) : Prop :=
  low ≤ v ∧ v ≤ high ∧ (¬closed → low ≠ v ∧ v ≠ high)

section Within

variable {closed : Prop} {low v high k : ℚ}

theorem Within.of_lt (hlow : low < v) (hhigh : v < high) : Within closed low v high :=
  ⟨hlow.le, hhigh.le, fun _ => ⟨hlow.ne, hhigh.ne⟩⟩

theorem Within.of_le (hclosed : closed) (hlow : low ≤ v) (hhigh : v ≤ high) :
    Within closed low v high :=
  ⟨hlow, hhigh, fun hopen => absurd hclosed hopen⟩

/-- A common positive factor does not matter. -/
theorem within_mul_iff (hk : 0 < k) :
    Within closed (low * k) (v * k) (high * k) ↔ Within closed low v high := by
  unfold Within
  rw [mul_le_mul_iff_left₀ hk, mul_le_mul_iff_left₀ hk, Ne, Ne, mul_left_inj' hk.ne',
    mul_left_inj' hk.ne']

end Within

/-! ## Rounding to an integer -/

/-- A quotient is its whole part and what is left. -/
theorem quotient_eq (num : Nat) {den : Nat} (hden : 0 < den) :
    (num / den : ℚ) = (num / den : Nat) + (num % den : Nat) / den := by
  have hpos : (0 : ℚ) < den := by exact_mod_cast hden
  have hnum : (num : ℚ) = den * (num / den : Nat) + (num % den : Nat) := by
    exact_mod_cast (Nat.div_add_mod num den).symm
  rw [eq_comm, ← eq_sub_iff_add_eq', div_eq_iff hpos.ne', sub_mul, div_mul_cancel₀ _ hpos.ne']
  linarith

/-- Rounding to an integer moves a number by half a unit at most, and by half a unit only to an even
one. -/
theorem roundHalfEven_spec (num : Nat) {den : Nat} (hden : 0 < den) :
    |roundHalfEven num den - (num / den : ℚ)| ≤ 1 / 2
      ∧ (|roundHalfEven num den - (num / den : ℚ)| = 1 / 2 → roundHalfEven num den % 2 = 0) := by
  have hpos : (0 : ℚ) < den := by exact_mod_cast hden
  have hlt : num % den < den := Nat.mod_lt _ hden
  rw [quotient_eq num hden]
  unfold roundHalfEven
  simp only
  generalize num / den = below at *
  generalize num % den = left at *
  have hleft : (0 : ℚ) ≤ left / den := by positivity
  have hleft' : (left / den : ℚ) < 1 := by
    rw [div_lt_one hpos]
    exact_mod_cast hlt
  have hhalf (n : Nat) : (n * den < 2 * left ↔ (n / 2 : ℚ) < left / den)
      ∧ (2 * left = n * den ↔ (left / den : ℚ) = n / 2) := by
    rw [lt_div_iff₀ hpos, div_eq_iff hpos.ne']
    constructor
    · rw [div_mul_eq_mul_div, div_lt_iff₀ (by norm_num), mul_comm (left : ℚ)]
      exact_mod_cast Iff.rfl
    · rw [div_mul_eq_mul_div, eq_div_iff (by norm_num), mul_comm (left : ℚ)]
      exact_mod_cast Iff.rfl
  obtain ⟨habove, hmiddle⟩ := hhalf 1
  rw [Nat.one_mul] at habove hmiddle
  push_cast at habove hmiddle
  split
  · rename_i hup
    have hge : (1 / 2 : ℚ) ≤ left / den := by
      rcases hup with hup | ⟨hup, -⟩
      · exact (habove.mp hup).le
      · exact (hmiddle.mp hup).ge
    have hdistance : |((below + 1 : Nat) : ℚ) - (below + left / den)| = 1 - left / den := by
      rw [abs_of_nonneg] <;> push_cast <;> linarith
    rw [hdistance]
    refine ⟨by linarith, fun htie => ?_⟩
    have heq : 2 * left = den := hmiddle.mpr (by linarith)
    omega
  · rename_i hdown
    rw [not_or] at hdown
    have hle : (left / den : ℚ) ≤ 1 / 2 := not_lt.mp (mt habove.mpr hdown.1)
    have hdistance : |((below : Nat) : ℚ) - (below + left / den)| = left / den := by
      rw [sub_add_cancel_left, abs_neg, abs_of_nonneg hleft]
    rw [hdistance]
    refine ⟨hle, fun htie => ?_⟩
    have heq : 2 * left = den := hmiddle.mpr htie
    omega

/-- What is at most half a unit away from a number rounds to it, in the middle only if the number
is even. -/
theorem roundHalfEven_eq {num den r : Nat} (hden : 0 < den)
    (h : Within (r % 2 = 0) (r - 1 / 2) (num / den : ℚ) (r + 1 / 2)) :
    roundHalfEven num den = r := by
  obtain ⟨hlow, hhigh, hends⟩ := h
  obtain ⟨hnear, heven⟩ := roundHalfEven_spec num hden
  generalize roundHalfEven num den = found at *
  obtain ⟨hbelow, habove⟩ := abs_le.mp hnear
  -- two numbers that are both so near follow each other, and then not both are even
  rcases lt_trichotomy found r with hlt | heq | hlt
  · have hapart : (found + 1 : ℚ) ≤ r := by exact_mod_cast hlt
    have hnext : r ≤ found + 1 := by
      have : (r : ℚ) ≤ found + 1 := by linarith
      exact_mod_cast this
    have := heven (by rw [abs_of_nonpos] <;> linarith)
    exact absurd (by linarith) (hends (by omega)).1
  · exact heq
  · have hapart : (r + 1 : ℚ) ≤ found := by exact_mod_cast hlt
    have hnext : found ≤ r + 1 := by
      have : (found : ℚ) ≤ r + 1 := by linarith
      exact_mod_cast this
    have := heven (by rw [abs_of_nonneg] <;> linarith)
    exact absurd (by linarith) (hends (by omega)).2

/-! ## The scale -/

theorem two_zpow_pos (z : ℤ) : (0 : ℚ) < 2 ^ z :=
  zpow_pos (by norm_num) z

theorem two_zpow_le {a b : ℤ} (h : a ≤ b) : (2 : ℚ) ^ a ≤ 2 ^ b :=
  zpow_le_zpow_right₀ (by norm_num) h

theorem two_zpow_add_one (z : ℤ) : (2 : ℚ) ^ (z + 1) = 2 * 2 ^ z := by
  rw [zpow_add_one₀ (by norm_num), mul_comm]

/-- A power as the quotient of two powers with natural exponents. -/
theorem zpow_eq_div {b : ℚ} (hb : b ≠ 0) (z : ℤ) : b ^ z = b ^ z.toNat / b ^ (-z).toNat := by
  have hsplit : z = (z.toNat : ℤ) - ((-z).toNat : ℤ) := by omega
  conv_lhs => rw [hsplit]
  rw [zpow_sub₀ hb, zpow_natCast, zpow_natCast]

theorem rescale_pos {num den : Nat} (hden : 0 < den) (scale : Int) :
    0 < (rescale num den scale).2 :=
  Nat.mul_pos hden (Nat.pow_pos (by decide))

/-- Rescaling divides by a power of two. -/
theorem rescale_div (num den : Nat) (scale : Int) :
    ((rescale num den scale).1 / (rescale num den scale).2 : ℚ) = num / den / 2 ^ scale := by
  simp only [rescale, Nat.pow_eq]
  rw [zpow_eq_div (by norm_num) scale]
  push_cast
  field_simp

/-- Whether a quotient has fewer than fifty-three bits at a scale shows in its whole part. -/
theorem rescale_lt_iff {num den : Nat} (hden : 0 < den) (scale : Int) :
    (rescale num den scale).1 / (rescale num den scale).2 < fractionCount
      ↔ (num / den : ℚ) < fractionCount * 2 ^ scale := by
  have hpos : (0 : ℚ) < (rescale num den scale).2 := by exact_mod_cast rescale_pos hden scale
  rw [Nat.div_lt_iff_lt_mul (rescale_pos hden scale), ← div_lt_iff₀ (two_zpow_pos scale),
    ← rescale_div, div_lt_iff₀ hpos]
  exact_mod_cast Iff.rfl

/-- A quotient of positive numbers lies between the powers of two of its logarithms. -/
theorem div_log2_bounds {num den : Nat} (hnum : 0 < num) (hden : 0 < den) :
    (2 : ℚ) ^ ((num.log2 : ℤ) - den.log2 - 1) ≤ num / den
      ∧ (num / den : ℚ) < 2 ^ ((num.log2 : ℤ) - den.log2 + 1) := by
  have hpos : (0 : ℚ) < den := by exact_mod_cast hden
  have hnumLow : (2 : ℚ) ^ num.log2 ≤ num := by exact_mod_cast Nat.log2_self_le (by omega)
  have hnumHigh : (num : ℚ) < 2 ^ (num.log2 + 1) := by exact_mod_cast Nat.lt_log2_self
  have hdenLow : (2 : ℚ) ^ den.log2 ≤ den := by exact_mod_cast Nat.log2_self_le (by omega)
  have hdenHigh : (den : ℚ) < 2 ^ (den.log2 + 1) := by exact_mod_cast Nat.lt_log2_self
  constructor
  · rw [le_div_iff₀ hpos]
    calc (2 : ℚ) ^ ((num.log2 : ℤ) - den.log2 - 1) * den
        ≤ 2 ^ ((num.log2 : ℤ) - den.log2 - 1) * 2 ^ (den.log2 + 1) :=
          mul_le_mul_of_nonneg_left hdenHigh.le (two_zpow_pos _).le
      _ = 2 ^ num.log2 := by
          rw [← zpow_natCast, ← zpow_natCast, ← zpow_add₀ (by norm_num)]
          congr 1
          push_cast
          ring
      _ ≤ num := hnumLow
  · rw [div_lt_iff₀ hpos]
    calc (num : ℚ) < 2 ^ (num.log2 + 1) := hnumHigh
      _ = 2 ^ ((num.log2 : ℤ) - den.log2 + 1) * 2 ^ den.log2 := by
          rw [← zpow_natCast, ← zpow_natCast, ← zpow_add₀ (by norm_num)]
          congr 1
          push_cast
          ring
      _ ≤ 2 ^ ((num.log2 : ℤ) - den.log2 + 1) * den :=
          mul_le_mul_of_nonneg_left hdenLow (two_zpow_pos _).le

/-- At its scale a quotient has at most fifty-three bits, and exactly as many unless the scale is
the smallest one. -/
theorem scaleOf_spec {num den : Nat} (hnum : 0 < num) (hden : 0 < den) :
    -1074 ≤ scaleOf num den
      ∧ (num / den : ℚ) < 2 * fractionCount * 2 ^ scaleOf num den
      ∧ (scaleOf num den = -1074 ∨ (fractionCount : ℚ) * 2 ^ scaleOf num den ≤ num / den) := by
  obtain ⟨hlow, hhigh⟩ := div_log2_bounds hnum hden
  have hcount : (fractionCount : ℚ) = 2 ^ (52 : ℤ) := by norm_num [fractionCount]
  obtain ⟨guess, hguess⟩ : ∃ g : ℤ, g = (num.log2 : ℤ) - den.log2 - 52 := ⟨_, rfl⟩
  -- the scale before the smallest one is taken into account
  obtain ⟨scale, hscale, hbelow, habove⟩ : ∃ z : ℤ, scaleOf num den = max (-1074) z
      ∧ (num / den : ℚ) < 2 * fractionCount * 2 ^ z
      ∧ (fractionCount : ℚ) * 2 ^ z ≤ num / den := by
    have hiff := @rescale_lt_iff num den hden guess
    unfold scaleOf
    simp only [← hguess]
    by_cases hsmall : (rescale num den guess).1 / (rescale num den guess).2 < fractionCount
    · refine ⟨guess - 1, by rw [if_pos hsmall], ?_, ?_⟩
      · have hdouble := two_zpow_add_one (guess - 1)
        rw [sub_add_cancel] at hdouble
        calc (num / den : ℚ) < fractionCount * 2 ^ guess := hiff.mp hsmall
          _ = 2 * fractionCount * 2 ^ (guess - 1) := by rw [hdouble]; ring
      · calc (fractionCount : ℚ) * 2 ^ (guess - 1)
            = 2 ^ ((num.log2 : ℤ) - den.log2 - 1) := by
              rw [hcount, ← zpow_add₀ (by norm_num), hguess]
              congr 1
              ring
          _ ≤ num / den := hlow
    · refine ⟨guess, by rw [if_neg hsmall], ?_, not_lt.mp (mt hiff.mpr hsmall)⟩
      calc (num / den : ℚ) < 2 ^ ((num.log2 : ℤ) - den.log2 + 1) := hhigh
        _ = 2 * fractionCount * 2 ^ guess := by
            rw [hcount, ← two_zpow_add_one, ← zpow_add₀ (by norm_num), hguess]
            congr 1
            ring
  rw [hscale]
  refine ⟨le_max_left _ _, ?_, ?_⟩
  · refine lt_of_lt_of_le hbelow ?_
    exact mul_le_mul_of_nonneg_left (two_zpow_le (le_max_right _ _)) (by positivity)
  · rcases le_total (-1074) scale with h | h
    · rw [max_eq_right h]
      exact .inr habove
    · exact .inl (max_eq_left h)

/-- A quotient below `2 ^ 1023` does not overflow. -/
theorem nearestWord_lt {num den : Nat} (hden : 0 < den) (hlt : (num / den : ℚ) < 2 ^ (1023 : ℤ)) :
    nearestWord num den < infinityWord := by
  unfold nearestWord
  split
  · decide
  rename_i hnum
  obtain ⟨hleast, hbelow, habove⟩ := scaleOf_spec (Nat.pos_of_ne_zero hnum) hden
  have hunit := two_zpow_pos (scaleOf num den)
  have hcount : (fractionCount : ℚ) = 2 ^ (52 : ℤ) := by norm_num [fractionCount]
  have hscale : scaleOf num den < 971 := by
    rcases habove with hsmall | habove
    · omega
    · have hpower : (2 : ℚ) ^ (52 + scaleOf num den) < 2 ^ (1023 : ℤ) := by
        rw [zpow_add₀ (by norm_num), ← hcount]
        exact lt_of_le_of_lt habove hlt
      have := (zpow_lt_zpow_iff_right₀ (by norm_num)).mp hpower
      omega
  have hround : roundHalfEven (rescale num den (scaleOf num den)).1
      (rescale num den (scaleOf num den)).2 ≤ 2 * fractionCount := by
    have hpos : 0 < (rescale num den (scaleOf num den)).2 := rescale_pos hden _
    have hpos' : (0 : ℚ) < (rescale num den (scaleOf num den)).2 := by exact_mod_cast hpos
    have hquotient := rescale_div num den (scaleOf num den)
    have hfloor : (rescale num den (scaleOf num den)).1 / (rescale num den (scaleOf num den)).2
        < 2 * fractionCount := by
      rw [Nat.div_lt_iff_lt_mul hpos]
      rw [← div_lt_iff₀ hunit, ← hquotient, div_lt_iff₀ hpos'] at hbelow
      exact_mod_cast hbelow
    unfold roundHalfEven
    simp only
    split <;> omega
  simp only
  unfold infinityWord fractionCount at *
  omega

/-- The double of an integer of less than sixty-five bits is finite. -/
theorem isFinite_ofInt {n : Int} (hn : n.natAbs < 2 ^ 64) : (ofInt n).isFinite = true := by
  have hword : nearestWord n.natAbs 1 < infinityWord := by
    apply nearestWord_lt (by decide)
    have hcast : (n.natAbs : ℚ) < 2 ^ 64 := by exact_mod_cast hn
    calc (n.natAbs / (1 : Nat) : ℚ)
        = n.natAbs := by rw [Nat.cast_one, div_one]
      _ < 2 ^ 64 := hcast
      _ = 2 ^ (64 : ℤ) := rfl
      _ ≤ 2 ^ (1023 : ℤ) := two_zpow_le (by decide)
  unfold ofInt ofQuotient
  split
  · exact (isFinite_ofBits hword).2
  · exact (isFinite_ofBits hword).1

/-! ## The interval of a double -/

/-- How far the interval of a double goes down, in units of its last place. -/
def gapBelow (x : Float) : ℚ :=
  if mantissa x = fractionCount ∧ 1 ≤ place x then 1 / 4 else 1 / 2

/-- `v` is one of the numbers that round to the magnitude of `x`. -/
def Owns (x : Float) (v : ℚ) : Prop :=
  Within (mantissa x % 2 = 0) ((mantissa x - gapBelow x) * 2 ^ exponent x) v
    ((mantissa x + 1 / 2) * 2 ^ exponent x)

theorem gapBelow_pos (x : Float) : 0 < gapBelow x := by
  unfold gapBelow
  split <;> norm_num

theorem gapBelow_le (x : Float) : gapBelow x ≤ 1 / 2 := by
  unfold gapBelow
  split <;> norm_num

/-- What a double other than zero owns is positive. -/
theorem Owns.pos {x : Float} {v : ℚ} (h : Owns x v) (hzero : mantissa x ≠ 0) : 0 < v := by
  have hgap := gapBelow_le x
  have hone : (1 : ℚ) ≤ mantissa x := by exact_mod_cast Nat.pos_of_ne_zero hzero
  refine lt_of_lt_of_le ?_ h.1
  exact mul_pos (by linarith) (two_zpow_pos _)

/-- The ends that are half a unit away count at least as much. -/
theorem Owns.within_half {x : Float} {v : ℚ} (h : Owns x v) :
    Within (mantissa x % 2 = 0) ((mantissa x - 1 / 2) * 2 ^ exponent x) v
      ((mantissa x + 1 / 2) * 2 ^ exponent x) := by
  by_cases hnarrow : mantissa x = fractionCount ∧ 1 ≤ place x
  · have hgap := gapBelow_le x
    refine .of_le (by rw [hnarrow.1]; decide) (le_trans ?_ h.1) h.2.1
    exact mul_le_mul_of_nonneg_right (by linarith) (two_zpow_pos _).le
  · rwa [Owns, gapBelow, if_neg hnarrow] at h

section Rounding

variable {x : Float} {num den : Nat}

/-- A scale above the one of the double is out of reach. -/
theorem Owns.scaleOf_le (hnum : 0 < num) (hden : 0 < den) (h : Owns x (num / den)) :
    scaleOf num den ≤ exponent x := by
  by_contra hscale
  have htwice : 2 * 2 ^ exponent x ≤ (2 : ℚ) ^ scaleOf num den := by
    rw [← two_zpow_add_one]
    exact two_zpow_le (by omega)
  have hexponent := exponent_eq x
  have hreach := (scaleOf_spec hnum hden).2.2.resolve_left (by omega)
  have hmantissa : (mantissa x + 1 : ℚ) ≤ 2 * fractionCount := by exact_mod_cast mantissa_lt x
  have hunit := two_zpow_pos (exponent x)
  have hhigh := h.2.1
  nlinarith

/-- A scale below the one of the double is the scale before it, and the double is a power of
two. -/
theorem Owns.of_scaleOf_lt (hnum : 0 < num) (hden : 0 < den) (h : Owns x (num / den))
    (hlt : scaleOf num den < exponent x) :
    mantissa x = fractionCount ∧ 1 ≤ place x ∧ scaleOf num den + 1 = exponent x := by
  obtain ⟨hleast, hbelow, -⟩ := scaleOf_spec hnum hden
  have hexponent := exponent_eq x
  have hplace : 1 ≤ place x := by omega
  have hunit := two_zpow_pos (exponent x)
  have hlow := h.1
  have hgap := gapBelow_le x
  have htwice : 2 * 2 ^ scaleOf num den ≤ (2 : ℚ) ^ exponent x := by
    rw [← two_zpow_add_one]
    exact two_zpow_le (by omega)
  have hpower : mantissa x = fractionCount := by
    refine Nat.le_antisymm ?_ (fractionCount_le_mantissa hplace)
    have : (mantissa x - 1 / 2 : ℚ) * 2 ^ exponent x < fractionCount * 2 ^ exponent x := by
      nlinarith
    have : (mantissa x : ℚ) < fractionCount + 1 := by
      have := lt_of_mul_lt_mul_right this hunit.le
      linarith
    exact Nat.lt_succ_iff.mp (by exact_mod_cast this)
  refine ⟨hpower, hplace, ?_⟩
  by_contra hne
  have hfour : 4 * 2 ^ scaleOf num den ≤ (2 : ℚ) ^ exponent x := by
    have hstep : (2 : ℚ) ^ (scaleOf num den + 1 + 1) ≤ 2 ^ exponent x := two_zpow_le (by omega)
    rw [two_zpow_add_one, two_zpow_add_one] at hstep
    linarith
  have hcount : (fractionCount : ℚ) = 4503599627370496 := by norm_num [fractionCount]
  rw [hpower, hcount] at hlow
  rw [hcount] at hbelow
  nlinarith

/-- At the scale of the double the quotient is rounded to the mantissa. -/
theorem Owns.round_of_scaleOf_eq (hden : 0 < den) (h : Owns x (num / den))
    (hscale : scaleOf num den = exponent x) :
    roundHalfEven (rescale num den (scaleOf num den)).1 (rescale num den (scaleOf num den)).2
      = mantissa x := by
  apply roundHalfEven_eq (rescale_pos hden _)
  rw [rescale_div, hscale, ← within_mul_iff (two_zpow_pos (exponent x)),
    div_mul_cancel₀ _ (two_zpow_pos (exponent x)).ne']
  exact h.within_half

/-- At the scale before it is rounded up to the power of two. -/
theorem Owns.round_of_scaleOf_lt (hnum : 0 < num) (hden : 0 < den) (h : Owns x (num / den))
    (hlt : scaleOf num den < exponent x) :
    roundHalfEven (rescale num den (scaleOf num den)).1 (rescale num den (scaleOf num den)).2
      = 2 * fractionCount := by
  obtain ⟨hpower, hplace, hnext⟩ := h.of_scaleOf_lt hnum hden hlt
  have hbelow := (scaleOf_spec hnum hden).2.1
  have hunit := two_zpow_pos (scaleOf num den)
  have hlow := h.1
  have hquarter : gapBelow x = 1 / 4 := if_pos ⟨hpower, hplace⟩
  rw [hquarter, hpower, ← hnext, two_zpow_add_one] at hlow
  apply roundHalfEven_eq (rescale_pos hden _)
  rw [rescale_div]
  refine .of_le (by decide) ?_ ?_
  · rw [le_div_iff₀ hunit]
    push_cast
    linarith
  · rw [div_le_iff₀ hunit]
    push_cast
    linarith

/-- A quotient that a finite double owns rounds to that double. -/
theorem nearestWord_of_owns (hfinite : x.isFinite = true) (hzero : mantissa x ≠ 0)
    (hden : 0 < den) (h : Owns x (num / den)) : nearestWord num den = magnitudeWord x := by
  have hnum : 0 < num := by
    rcases Nat.eq_zero_or_pos num with rfl | hnum
    · simpa using h.pos hzero
    · exact hnum
  have hexponent := exponent_eq x
  have hsum : (scaleOf num den + 1074).toNat * fractionCount
      + roundHalfEven (rescale num den (scaleOf num den)).1 (rescale num den (scaleOf num den)).2
      = magnitudeWord x := by
    unfold magnitudeWord
    rcases lt_or_eq_of_le (h.scaleOf_le hnum hden) with hlt | hscale
    · obtain ⟨hpower, hplace, hnext⟩ := h.of_scaleOf_lt hnum hden hlt
      have hbiased : place x = (scaleOf num den + 1074).toNat + 1 := by omega
      rw [h.round_of_scaleOf_lt hnum hden hlt, hpower, hbiased]
      ring
    · have hbiased : place x = (scaleOf num den + 1074).toNat := by omega
      rw [h.round_of_scaleOf_eq hden hscale, hbiased]
  unfold nearestWord
  simp only [if_neg hnum.ne', hsum]
  exact Nat.min_eq_right (magnitudeWord_lt hfinite).le

end Rounding

/-! ## Decimals -/

theorem ten_zpow_pos (z : ℤ) : (0 : ℚ) < 10 ^ z :=
  zpow_pos (by norm_num) z

theorem ten_zpow_le {a b : ℤ} (h : a ≤ b) : (10 : ℚ) ^ a ≤ 10 ^ b :=
  zpow_le_zpow_right₀ (by norm_num) h

/-- Ninety-three binary digits are less than twenty-eight decimal ones. -/
theorem two_pow_lt_ten_pow {k : Nat} (hk : 0 < k) : 2 ^ (93 * k) < 10 ^ (28 * k) := by
  rw [pow_mul, pow_mul]
  exact Nat.pow_lt_pow_left (by norm_num) hk.ne'

section Decimals

variable {x : Float} {digits : Nat} {exponent : ℤ}

/-- A power of ten above `10 ^ 310` is out of the range of the doubles. -/
theorem two_pow_lt_decimal (hdigits : 0 < digits) (h : 310 < exponent) :
    (2 : ℚ) ^ 1024 < digits * 10 ^ exponent := by
  have hone : (1 : ℚ) ≤ digits := by exact_mod_cast hdigits
  have hpowers : 2 ^ 1024 < 10 ^ 311 := by
    rw [show 1024 = 93 * 11 + 1 from rfl, show 311 = 28 * 11 + 3 from rfl, pow_add, pow_add]
    exact Nat.mul_lt_mul_of_lt_of_le (two_pow_lt_ten_pow (by decide)) (by decide) (by decide)
  calc (2 : ℚ) ^ 1024
      < 10 ^ 311 := by exact_mod_cast hpowers
    _ = 10 ^ (311 : ℤ) := rfl
    _ ≤ 10 ^ exponent := ten_zpow_le (by omega)
    _ ≤ digits * 10 ^ exponent := le_mul_of_one_le_left (ten_zpow_pos _).le hone

/-- A number below `10 ^ (-330)` is less than half of the smallest double. -/
theorem decimal_lt_two_zpow (h : exponent < -(330 + digits.log2 : ℤ)) :
    (digits * 10 ^ exponent : ℚ) < 1 / 2 * 2 ^ (-1074 : ℤ) := by
  have hlog : (digits : ℚ) ≤ 2 * 10 ^ (digits.log2 : ℤ) := by
    have htwo : (digits : ℚ) < 2 ^ (digits.log2 + 1) := by exact_mod_cast Nat.lt_log2_self
    have hten : (2 : ℚ) ^ digits.log2 ≤ 10 ^ digits.log2 :=
      pow_le_pow_left₀ (by norm_num) (by norm_num) _
    rw [pow_succ] at htwo
    rw [zpow_natCast]
    linarith
  have hpowers : (4 * 2 ^ 1074 : ℚ) < 10 ^ 331 := by
    have hlt : 4 * 2 ^ 1074 < 10 ^ 331 := by
      rw [show 1074 = 93 * 11 + 51 from rfl, show 331 = 28 * 11 + 23 from rfl, pow_add, pow_add,
        mul_left_comm]
      exact Nat.mul_lt_mul_of_lt_of_le (two_pow_lt_ten_pow (by decide)) (by decide) (by decide)
    exact_mod_cast hlt
  have hsmall : (2 * 10 ^ (-331 : ℤ) : ℚ) < 1 / 2 * 2 ^ (-1074 : ℤ) := by
    have hten : (10 : ℚ) ^ (-331 : ℤ) = (10 ^ 331)⁻¹ := zpow_neg_coe_of_pos 10 (by decide)
    have htwo : (2 : ℚ) ^ (-1074 : ℤ) = (2 ^ 1074)⁻¹ := zpow_neg_coe_of_pos 2 (by decide)
    have hpos : (0 : ℚ) < 10 ^ 331 := by positivity
    have hpos' : (0 : ℚ) < 2 ^ 1074 := by positivity
    rw [hten, htwo, ← div_eq_mul_inv, ← div_eq_mul_inv, div_lt_div_iff₀ hpos hpos']
    generalize (10 : ℚ) ^ 331 = ten at *
    generalize (2 : ℚ) ^ 1074 = two at *
    linarith
  calc (digits * 10 ^ exponent : ℚ)
      ≤ 2 * 10 ^ (digits.log2 : ℤ) * 10 ^ (-(331 + digits.log2 : ℤ)) :=
        mul_le_mul hlog (ten_zpow_le (by omega)) (ten_zpow_pos _).le
          (mul_nonneg (by norm_num) (ten_zpow_pos _).le)
    _ = 2 * 10 ^ (-331 : ℤ) := by
        rw [mul_assoc, ← zpow_add₀ (by norm_num)]
        congr 2
        ring
    _ < 1 / 2 * 2 ^ (-1074 : ℤ) := hsmall

/-- A finite double owns no number as large as `10 ^ 311`. -/
theorem Owns.exponent_le (hfinite : x.isFinite = true) (hdigits : 0 < digits)
    (h : Owns x (digits * 10 ^ exponent)) : exponent ≤ 310 := by
  by_contra hlarge
  have hplace := place_lt hfinite
  have hunit : (2 : ℚ) ^ Binary64.exponent x ≤ 2 ^ (971 : ℤ) := by
    apply two_zpow_le
    rw [exponent_eq]
    omega
  have hmantissa : (mantissa x + 1 / 2 : ℚ) ≤ 2 ^ (53 : ℤ) := by
    have : (mantissa x + 1 : ℚ) ≤ 2 * fractionCount := by exact_mod_cast mantissa_lt x
    norm_num [fractionCount] at this ⊢
    linarith
  have hle : (digits * 10 ^ exponent : ℚ) ≤ 2 ^ 1024 := by
    calc (digits * 10 ^ exponent : ℚ)
        ≤ (mantissa x + 1 / 2) * 2 ^ Binary64.exponent x := h.2.1
      _ ≤ 2 ^ (53 : ℤ) * 2 ^ (971 : ℤ) :=
          mul_le_mul hmantissa hunit (two_zpow_pos _).le (two_zpow_pos _).le
      _ = 2 ^ 1024 := by rw [← zpow_add₀ (by norm_num), ← zpow_natCast]; rfl
  exact absurd hle (not_le.mpr (two_pow_lt_decimal hdigits (not_le.mp hlarge)))

/-- A double other than zero owns no number below `10 ^ (-330)`. -/
theorem Owns.le_exponent (hzero : mantissa x ≠ 0) (h : Owns x (digits * 10 ^ exponent)) :
    -(330 + digits.log2 : ℤ) ≤ exponent := by
  by_contra hsmall
  have hunit : (2 : ℚ) ^ (-1074 : ℤ) ≤ 2 ^ Binary64.exponent x := by
    apply two_zpow_le
    rw [exponent_eq]
    omega
  have hmantissa : (1 / 2 : ℚ) ≤ mantissa x - gapBelow x := by
    have hone : (1 : ℚ) ≤ mantissa x := by exact_mod_cast Nat.pos_of_ne_zero hzero
    have hgap := gapBelow_le x
    linarith
  have hle : (1 / 2 : ℚ) * 2 ^ (-1074 : ℤ) ≤ digits * 10 ^ exponent := by
    calc (1 / 2 : ℚ) * 2 ^ (-1074 : ℤ)
        ≤ (mantissa x - gapBelow x) * 2 ^ Binary64.exponent x :=
          mul_le_mul hmantissa hunit (two_zpow_pos _).le (by linarith)
      _ ≤ digits * 10 ^ exponent := h.1
  exact absurd hle (not_le.mpr (decimal_lt_two_zpow (not_le.mp hsmall)))

/-- A decimal that a finite double owns is read as the magnitude of that double. -/
theorem ofDecimal_of_owns (hfinite : x.isFinite = true) (hzero : mantissa x ≠ 0)
    (h : Owns x (digits * 10 ^ exponent)) :
    ofDecimal digits exponent = Float.ofBits (UInt64.ofNat (magnitudeWord x)) := by
  have hdigits : 0 < digits := by
    rcases Nat.eq_zero_or_pos digits with rfl | hdigits
    · simpa using h.pos hzero
    · exact hdigits
  have hlow := h.le_exponent hzero
  have hhigh := h.exponent_le hfinite hdigits
  have hquotient : Owns x ((digits * Nat.pow 10 exponent.toNat : Nat)
      / (Nat.pow 10 (-exponent).toNat : Nat)) := by
    rw [zpow_eq_div (by norm_num) exponent, ← mul_div_assoc] at h
    simpa only [Nat.pow_eq, Nat.cast_mul, Nat.cast_pow, Nat.cast_ofNat] using h
  have hword : nearestWord (digits * Nat.pow 10 exponent.toNat) (Nat.pow 10 (-exponent).toNat)
      = magnitudeWord x :=
    nearestWord_of_owns hfinite hzero (Nat.pow_pos (by decide)) hquotient
  unfold ofDecimal ofQuotient
  rw [if_neg hdigits.ne', if_neg (by omega), if_neg (by omega), hword]

end Decimals

end Specimen.Binary64
