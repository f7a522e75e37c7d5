import Specimen.Proofs.Binary64.Whole

/-!
# The word of a double

A double is known by its word (`word_injective`). The word of a finite double is the sum of its
sign, of its scale and of its mantissa: with the biased scale `place x` it is
`place x * 2 ^ 52 + mantissa x`, and half of all words more if the double is negative. The hidden
bit of the mantissa and the exponent field meet in this sum (`word_eq`).
-/

namespace Specimen.Binary64

open Float.Model

/-! ## Words and doubles -/

theorem toBits_injective {x y : Float} (h : x.toBits = y.toBits) : x = y := by
  obtain ⟨⟨_, _⟩⟩ := x
  obtain ⟨⟨_, _⟩⟩ := y
  cases h
  rfl

theorem word_injective {x y : Float} (h : word x = word y) : x = y :=
  toBits_injective (UInt64.toNat_inj.mp h)

theorem word_lt (x : Float) : word x < 2 ^ 64 :=
  x.toBits.toNat_lt

/-- The exponent field is full for NaN and for the infinities only. -/
theorem isFinite_iff (x : Float) : x.isFinite = true ↔ exponentField x ≠ 2047 := by
  have hunpack : x.isFinite = (UnpackedFloat.unpack Format.binary64 x.toBits.toBitVec).isFinite :=
    rfl
  have hfield : exponentField x
      = (@UnpackedFloat.unpackExponent Format.binary64 x.toBits.toBitVec).toNat :=
    (toNat_unpackExponent x.toBits.toBitVec).symm
  have hfull : @UnpackedFloat.unpackExponent Format.binary64 x.toBits.toBitVec = -1#11
      ↔ exponentField x = 2047 := by
    rw [hfield]
    constructor
    · intro h
      rw [h]
      rfl
    · intro h
      exact BitVec.eq_of_toNat_eq h
  rw [hunpack, Ne, ← hfull]
  unfold UnpackedFloat.unpack
  by_cases hexp : @UnpackedFloat.unpackExponent Format.binary64 x.toBits.toBitVec = -1#11
  · refine iff_of_false ?_ (not_not_intro hexp)
    simp only [if_pos hexp]
    split <;> exact Bool.false_ne_true
  · refine iff_of_true ?_ hexp
    simp only [if_neg hexp]
    split
    · split <;> rfl
    · rfl

/-- A word below the word of infinity is kept. -/
theorem word_ofBits {w : Nat} (hw : w < infinityWord) :
    word (Float.ofBits (UInt64.ofNat w)) = w := by
  have hsmall : w < 2 ^ 63 := Nat.lt_trans hw (by decide)
  have hto : (UInt64.ofNat w).toNat = w := by
    rw [UInt64.toNat_ofNat']
    omega
  unfold word
  rw [toBits_ofBits, hto]
  rw [hto]
  unfold infinityWord fractionCount at *
  omega

/-- With a minus sign it has the sign bit as well. -/
theorem word_neg_ofBits {w : Nat} (hw : w < infinityWord) :
    word (-(Float.ofBits (UInt64.ofNat w))) = 2 ^ 63 + w := by
  have hsmall : w < 2 ^ 63 := Nat.lt_trans hw (by decide)
  have hto : (UInt64.ofNat w).toNat = w := by
    rw [UInt64.toNat_ofNat']
    omega
  unfold word
  rw [toNat_toBits_neg_ofBits, hto]
  · omega
  · rw [hto]
    unfold infinityWord fractionCount at *
    omega

/-- Such a double is finite, with either sign. -/
theorem isFinite_ofBits {w : Nat} (hw : w < infinityWord) :
    (Float.ofBits (UInt64.ofNat w)).isFinite = true
      ∧ (-(Float.ofBits (UInt64.ofNat w))).isFinite = true := by
  rw [isFinite_iff, isFinite_iff, exponentField, exponentField, word_ofBits hw, word_neg_ofBits hw]
  unfold infinityWord fractionCount at *
  omega

/-! ## The parts of a finite double -/

/-- The biased scale: the exponent counted from the smallest one. -/
def place (x : Float) : Nat :=
  max 1 (exponentField x) - 1

theorem exponent_eq (x : Float) : exponent x = (place x : Int) - 1074 := by
  unfold exponent place
  omega

theorem mantissa_lt (x : Float) : mantissa x < 2 * fractionCount := by
  have hfraction : fractionField x < fractionCount := Nat.mod_lt _ (by decide)
  unfold mantissa
  split <;> omega

/-- Above the smallest scale a mantissa has all its bits. -/
theorem fractionCount_le_mantissa {x : Float} (h : 1 ≤ place x) : fractionCount ≤ mantissa x := by
  unfold place at h
  unfold mantissa
  rw [if_neg (by omega)]
  omega

theorem place_lt {x : Float} (hfinite : x.isFinite = true) : place x < 2046 := by
  have hfull := (isFinite_iff x).mp hfinite
  have hfield : exponentField x < 2048 := Nat.mod_lt _ (by decide)
  unfold place
  omega

/-- The word of the magnitude of a double. -/
def magnitudeWord (x : Float) : Nat :=
  place x * fractionCount + mantissa x

theorem magnitudeWord_lt {x : Float} (hfinite : x.isFinite = true) :
    magnitudeWord x < infinityWord := by
  have hplace := place_lt hfinite
  have hmantissa := mantissa_lt x
  unfold magnitudeWord infinityWord fractionCount at *
  omega

/-- The word of a double is the word of its magnitude and its sign. -/
theorem word_eq (x : Float) :
    word x = (if isNegative x then 2 ^ 63 else 0) + magnitudeWord x := by
  have hword := word_lt x
  have hparts : magnitudeWord x = word x % 2 ^ 63 := by
    unfold magnitudeWord place mantissa exponentField fractionField fractionCount
    split <;> omega
  have hsign : isNegative x = decide (2 ^ 63 ≤ word x) := rfl
  rw [hparts, hsign]
  by_cases h : 2 ^ 63 ≤ word x
  · rw [decide_eq_true h, if_pos rfl]
    omega
  · rw [decide_eq_false h, if_neg Bool.false_ne_true]
    omega

/-- A double is put together again from its sign and the word of its magnitude. -/
theorem ofBits_magnitudeWord {x : Float} (hfinite : x.isFinite = true) :
    (if isNegative x then -(Float.ofBits (UInt64.ofNat (magnitudeWord x)))
      else Float.ofBits (UInt64.ofNat (magnitudeWord x))) = x := by
  have hlt := magnitudeWord_lt hfinite
  apply word_injective
  rw [word_eq x]
  split
  · exact word_neg_ofBits hlt
  · rw [word_ofBits hlt, Nat.zero_add]

end Specimen.Binary64
