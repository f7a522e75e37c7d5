import Mathlib
import Specimen.Binary64.Nearest

/-!
# Whole numbers as doubles

What the bits of a double say when they are put together by hand, and when the double is negated. A
whole number of magnitude at most `2 ^ 53` is kept as it is. Main statements:
`roundedMagnitude_ofSign`, `isNegative_ofSign`.
-/

namespace Specimen.Binary64

open Float.Model Float.Model.UnpackedFloat Float.Model.Format

/-! ## Bits -/

theorem toNat_packComponents (sign : Sign) (e : BitVec 11) (m : BitVec 52) :
    (packComponents binary64 sign e m).toNat
      = sign.toBitVec.toNat * 2 ^ 63 + e.toNat * fractionCount + m.toNat := by
  have hm : m.toNat < 2 ^ 52 := m.isLt
  have he : e.toNat < 2 ^ 11 := e.isLt
  simp only [packComponents, BitVec.toNat_append]
  rw [← Nat.shiftLeft_add_eq_or_of_lt hm, ← Nat.shiftLeft_add_eq_or_of_lt he]
  simp only [Nat.shiftLeft_eq, fractionCount]
  omega

theorem toNat_unpackMantissa (b : BitVec 64) :
    (@unpackMantissa binary64 b).toNat = b.toNat % fractionCount := by
  simp [unpackMantissa, fractionCount]

theorem toNat_unpackExponent (b : BitVec 64) :
    (@unpackExponent binary64 b).toNat = b.toNat / fractionCount % 2048 := by
  simp [unpackExponent, fractionCount, Nat.shiftRight_eq_div_pow]

theorem toNat_unpackSign (b : BitVec 64) :
    (@unpackSign binary64 b).toNat = b.toNat / 2 ^ 63 % 2 := by
  simp [unpackSign, Nat.shiftRight_eq_div_pow]

theorem pack_normal (sign : Sign) (e : BitVec 11) (m : BitVec 52) (he : e ≠ -1#11)
    (hpos : 0 < (1#1 ++ m).toNat) :
    UnpackedFloat.pack binary64
        (.finite sign (1#1 ++ m).toNat ((e.toNat : Int) - (1023 + 52)) hpos)
      = packComponents binary64 sign e m := by
  have hm : m.toNat < 2 ^ 52 := m.isLt
  have hlt : e.toNat < 2 ^ 11 := e.isLt
  have hne : e.toNat ≠ 2047 := by
    intro h
    exact he (BitVec.eq_of_toNat_eq (by simp [h]))
  have hmantissa : (1#1 ++ m).toNat = 2 ^ 52 + m.toNat := by
    rw [BitVec.toNat_append, ← Nat.shiftLeft_add_eq_or_of_lt hm]
    rfl
  have hlog : (1#1 ++ m).toNat.log2 = 52 := by
    rw [hmantissa, Nat.log2_eq_iff (by omega)]
    omega
  have hbiased : ((e.toNat : Int) - (1023 + 52) + exponentBias binary64
      + binary64.mantissaBitsWithoutImplicit).toNat = e.toNat := by
    simp only [exponentBias]
    omega
  unfold UnpackedFloat.pack
  simp only [hbiased, hlog]
  rw [if_neg (by simp; omega), if_pos (by rfl)]
  congr 1
  · simp
  · apply BitVec.eq_of_toNat_eq
    rw [hmantissa, BitVec.toNat_ofNat]
    omega

theorem pack_subnormal (sign : Sign) (m : BitVec 52) (hpos : 0 < m.toNat) :
    UnpackedFloat.pack binary64 (.finite sign m.toNat ((0 : Int) - (1023 + 52) + 1) hpos)
      = packComponents binary64 sign 0#11 m := by
  have hm : m.toNat < 2 ^ 52 := m.isLt
  have hlog : m.toNat.log2 + 1 ≠ mantissaBits binary64 := by
    have := (Nat.log2_lt (by omega)).mpr hm
    simp only [mantissaBits]
    omega
  unfold UnpackedFloat.pack
  rw [if_neg (by decide)]
  dsimp only
  rw [if_neg hlog]
  congr 1
  simp

/-- A finite double is taken apart into a sign and the rest, and packed again with either sign. -/
theorem exists_unpack (b : BitVec 64) (hfinite : b.toNat / fractionCount % 2048 ≠ 2047) :
    ∃ f : Sign → UnpackedFloat,
      UnpackedFloat.unpack binary64 b = f (Sign.ofBitVec (@unpackSign binary64 b))
        ∧ (∀ sign, (f sign).neg = f (-sign))
        ∧ ∀ sign, UnpackedFloat.pack binary64 (f sign) = packComponents binary64 sign
            (@unpackExponent binary64 b) (@unpackMantissa binary64 b) := by
  have hexp : @unpackExponent binary64 b ≠ -1#11 := by
    intro h
    have := congrArg BitVec.toNat h
    rw [toNat_unpackExponent] at this
    exact hfinite (by simpa using this)
  unfold UnpackedFloat.unpack
  simp only [if_neg hexp]
  split
  · rename_i hzero
    split
    · rename_i hmantissa
      refine ⟨.zero, rfl, fun _ => rfl, fun sign => ?_⟩
      simp [UnpackedFloat.pack, packedZero, hzero, hmantissa]
    · rename_i hmantissa
      refine ⟨fun sign => .finite sign _ _ _, rfl, fun _ => rfl, fun sign => ?_⟩
      rw [hzero]
      exact pack_subnormal sign _ _
  · refine ⟨fun sign => .finite sign _ _ _, rfl, fun _ => rfl, fun sign => ?_⟩
    exact pack_normal sign _ _ hexp _

@[simp] theorem toBitVec_ofBitVec (b : BitVec 1) : (Sign.ofBitVec b).toBitVec = b := by
  revert b
  decide

theorem toNat_toBitVec_neg (b : BitVec 1) : (-(Sign.ofBitVec b)).toBitVec.toNat = 1 - b.toNat := by
  revert b
  decide

/-- A word that is not the word of an infinity and no NaN is kept. -/
theorem toBits_ofBits {w : UInt64} (hfinite : w.toNat / fractionCount % 2048 ≠ 2047) :
    (Float.ofBits w).toBits = w := by
  obtain ⟨f, hunpack, -, hpack⟩ := exists_unpack w.toBitVec hfinite
  have hbits : (Float.ofBits w).toBits
      = UInt64.ofBitVec (UnpackedFloat.pack binary64 (UnpackedFloat.unpack binary64 w.toBitVec)) :=
    rfl
  rw [hbits, hunpack, hpack]
  apply UInt64.toNat_inj.mp
  have hw : w.toNat < 2 ^ 64 := w.toNat_lt
  rw [UInt64.toNat_ofBitVec, toNat_packComponents, toBitVec_ofBitVec, toNat_unpackSign,
    toNat_unpackExponent, toNat_unpackMantissa, UInt64.toNat_toBitVec]
  simp only [fractionCount]
  omega

/-- Negation flips the sign bit. -/
theorem toNat_toBits_neg_ofBits {w : UInt64} (hfinite : w.toNat / fractionCount % 2048 ≠ 2047) :
    (-(Float.ofBits w)).toBits.toNat = (w.toNat + 2 ^ 63) % 2 ^ 64 := by
  obtain ⟨f, hunpack, hneg, hpack⟩ := exists_unpack w.toBitVec hfinite
  have hbits : (-(Float.ofBits w)).toBits = UInt64.ofBitVec (UnpackedFloat.pack binary64
      (UnpackedFloat.unpack binary64 (Float.ofBits w).toBits.toBitVec).neg) :=
    rfl
  rw [hbits, toBits_ofBits hfinite, hunpack, hneg, hpack]
  have hw : w.toNat < 2 ^ 64 := w.toNat_lt
  rw [UInt64.toNat_ofBitVec, toNat_packComponents, toNat_toBitVec_neg, toNat_unpackSign,
    toNat_unpackExponent, toNat_unpackMantissa, UInt64.toNat_toBitVec]
  simp only [fractionCount]
  omega

/-! ## Whole numbers -/

/-- The double of a whole number with a sign of its own, so zero has two. -/
def ofSign (negative : Bool) (n : Nat) : Float :=
  if negative then -ofQuotient n 1 else ofQuotient n 1

theorem ofInt_eq_ofSign (n : Int) : ofInt n = ofSign (decide (n < 0)) n.natAbs := by
  by_cases hn : n < 0 <;> simp [ofInt, ofSign, hn]

/-- The greatest magnitude up to which every whole number is a double. -/
def wholeLimit : Nat := 2 * fractionCount

/-- Scaled to fifty-three bits. -/
theorem mul_two_pow_mem_range {n k : Nat} (hk : k ≤ 52) (hlow : 2 ^ k ≤ n)
    (hhigh : n < 2 ^ (k + 1)) :
    fractionCount ≤ n * 2 ^ (52 - k) ∧ n * 2 ^ (52 - k) < 2 * fractionCount := by
  have hpower : 2 ^ k * 2 ^ (52 - k) = fractionCount := by
    rw [← Nat.pow_add, Nat.add_sub_cancel' hk]
    rfl
  constructor
  · rw [← hpower]
    exact Nat.mul_le_mul_right _ hlow
  · rw [← hpower, ← Nat.mul_assoc, ← Nat.pow_succ']
    exact Nat.mul_lt_mul_of_pos_right hhigh (Nat.two_pow_pos _)

/-- A positive number below the limit has at most fifty-three binary digits. -/
theorem exists_log2 {n : Nat} (hzero : n ≠ 0) (hlt : n < wholeLimit) :
    ∃ k ≤ 52, 2 ^ k ≤ n ∧ n < 2 ^ (k + 1) := by
  have hlog : n.log2 < 53 := by
    refine (Nat.log2_lt hzero).mpr ?_
    unfold wholeLimit fractionCount at hlt
    omega
  exact ⟨n.log2, Nat.le_of_lt_succ hlog, Nat.log2_self_le hzero, Nat.lt_log2_self⟩

theorem nearestWord_one {n k : Nat} (hk : k ≤ 52) (hlow : 2 ^ k ≤ n) (hhigh : n < 2 ^ (k + 1)) :
    nearestWord n 1 = (k + 1022) * fractionCount + n * 2 ^ (52 - k) := by
  have hpos : 0 < n := Nat.lt_of_lt_of_le (Nat.two_pow_pos k) hlow
  have hlog : n.log2 = k := (Nat.log2_eq_iff (by omega)).mpr ⟨hlow, hhigh⟩
  obtain ⟨hleast, hbelow⟩ := mul_two_pow_mem_range hk hlow hhigh
  have hscaled : rescale n 1 ((k : Int) - 52) = (n * 2 ^ (52 - k), 1) := by
    have hdown : (-((k : Int) - 52)).toNat = 52 - k := by omega
    have hup : ((k : Int) - 52).toNat = 0 := by omega
    simp only [rescale, hdown, hup]
    rfl
  have hscale : scaleOf n 1 = (k : Int) - 52 := by
    have hone : Nat.log2 1 = 0 := rfl
    simp only [scaleOf, hlog, hone, Int.natCast_zero, Int.sub_zero, hscaled, Nat.div_one,
      if_neg (Nat.not_lt.mpr hleast)]
    omega
  have hround : roundHalfEven (n * 2 ^ (52 - k)) 1 = n * 2 ^ (52 - k) := by
    simp [roundHalfEven, Nat.mod_one]
  have hplace : ((k : Int) - 52 + 1074).toNat = k + 1022 := by omega
  simp only [nearestWord, if_neg (Nat.pos_iff_ne_zero.mp hpos), hscale, hscaled, hround, hplace]
  apply Nat.min_eq_right
  unfold infinityWord fractionCount at *
  omega

theorem nearestWord_one_lt {n : Nat} (hn : n ≤ wholeLimit) : nearestWord n 1 < infinityWord := by
  by_cases hzero : n = 0
  · subst hzero
    decide
  by_cases hlimit : n = wholeLimit
  · subst hlimit
    decide
  obtain ⟨k, hk, hlow, hhigh⟩ := exists_log2 hzero (Nat.lt_of_le_of_ne hn hlimit)
  obtain ⟨hleast, hbelow⟩ := mul_two_pow_mem_range hk hlow hhigh
  rw [nearestWord_one hk hlow hhigh]
  unfold infinityWord fractionCount at *
  omega

/-- Apart from its sign bit, the word of a positive whole number with `k + 1` binary digits has the
number for its mantissa, scaled to fifty-three bits. -/
theorem parts_of_word {x : Float} {n k : Nat} (hk : k ≤ 52) (hlow : 2 ^ k ≤ n)
    (hhigh : n < 2 ^ (k + 1))
    (hword : word x % (UInt64.size / 2) = (k + 1022) * fractionCount + n * 2 ^ (52 - k)) :
    mantissa x = n * 2 ^ (52 - k) ∧ exponent x = (k : Int) - 52 := by
  obtain ⟨hleast, hbelow⟩ := mul_two_pow_mem_range hk hlow hhigh
  have hfield : exponentField x = k + 1023 := by
    unfold exponentField
    simp only [fractionCount, UInt64.size] at *
    omega
  have hfraction : fractionField x = n * 2 ^ (52 - k) - fractionCount := by
    unfold fractionField
    simp only [fractionCount, UInt64.size] at *
    omega
  constructor
  · unfold mantissa
    rw [if_neg (by omega), hfraction]
    omega
  · unfold exponent
    omega

/-- A double with such parts has the magnitude of the number. -/
theorem roundedMagnitude_of_parts {x : Float} {n k : Nat} (hk : k ≤ 52)
    (hmantissa : mantissa x = n * 2 ^ (52 - k)) (hexponent : exponent x = (k : Int) - 52) :
    roundedMagnitude x = n := by
  have hup : (exponent x).toNat = 0 := by omega
  have hdown : (-exponent x).toNat = 52 - k := by omega
  have hpos := Nat.two_pow_pos (52 - k)
  calc roundedMagnitude x
      = (2 * (n * 2 ^ (52 - k) * Nat.pow 2 0) + 2 ^ (52 - k)) / (2 * 2 ^ (52 - k)) := by
        simp only [roundedMagnitude, magnitude, denominator, hmantissa, hup, hdown]
        rfl
    _ = (2 ^ (52 - k) + 2 * 2 ^ (52 - k) * n) / (2 * 2 ^ (52 - k)) := by
        congr 1
        rw [Nat.pow_eq, Nat.pow_zero, Nat.mul_one, Nat.add_comm, Nat.mul_comm n, Nat.mul_assoc]
    _ = n := by
        rw [Nat.add_mul_div_left _ _ (by omega), Nat.div_eq_of_lt (by omega), Nat.zero_add]

/-- The word of a whole number with a sign is below the words of the infinities. -/
theorem word_ofSign {negative : Bool} {n : Nat} (hn : n ≤ wholeLimit) :
    word (ofSign negative n)
      = (if negative then UInt64.size / 2 else 0) + nearestWord n 1 := by
  have hsmall : nearestWord n 1 < infinityWord := nearestWord_one_lt hn
  have hw : (UInt64.ofNat (nearestWord n 1)).toNat = nearestWord n 1 := by
    rw [UInt64.toNat_ofNat']
    unfold infinityWord fractionCount at hsmall
    omega
  have hfinite : (UInt64.ofNat (nearestWord n 1)).toNat / fractionCount % 2048 ≠ 2047 := by
    rw [hw]
    unfold infinityWord fractionCount at *
    omega
  unfold ofSign word ofQuotient
  cases negative with
  | false =>
      simp only [Bool.false_eq_true, if_false]
      rw [toBits_ofBits hfinite, hw, Nat.zero_add]
  | true =>
      simp only [if_true]
      rw [toNat_toBits_neg_ofBits hfinite, hw]
      unfold infinityWord fractionCount at hsmall
      simp only [UInt64.size]
      omega

theorem isNegative_ofSign {negative : Bool} {n : Nat} (hn : n ≤ wholeLimit) :
    isNegative (ofSign negative n) = negative := by
  have hsmall : nearestWord n 1 < infinityWord := nearestWord_one_lt hn
  unfold isNegative
  rw [word_ofSign hn]
  unfold infinityWord fractionCount at hsmall
  cases negative with
  | false =>
      apply decide_eq_false
      simp only [Bool.false_eq_true, if_false, UInt64.size]
      omega
  | true => simp

/-- The parts of the double of a positive whole number with `k + 1` binary digits. -/
theorem parts_ofSign {negative : Bool} {n k : Nat} (hk : k ≤ 52) (hlow : 2 ^ k ≤ n)
    (hhigh : n < 2 ^ (k + 1)) :
    mantissa (ofSign negative n) = n * 2 ^ (52 - k)
      ∧ exponent (ofSign negative n) = (k : Int) - 52 := by
  have hn : n ≤ wholeLimit := by
    have hpower : 2 ^ (k + 1) ≤ 2 ^ 53 := Nat.pow_le_pow_right (by decide) (by omega)
    unfold wholeLimit fractionCount
    omega
  refine parts_of_word hk hlow hhigh ?_
  have hsmall : nearestWord n 1 < infinityWord := nearestWord_one_lt hn
  rw [word_ofSign hn, ← nearestWord_one hk hlow hhigh]
  unfold infinityWord fractionCount at hsmall
  cases negative <;> simp [UInt64.size] <;> omega

theorem mantissa_ofSign_zero (negative : Bool) : mantissa (ofSign negative 0) = 0 := by
  cases negative <;> rfl

theorem parts_ofSign_wholeLimit (negative : Bool) :
    mantissa (ofSign negative wholeLimit) = fractionCount
      ∧ exponent (ofSign negative wholeLimit) = 1 := by
  cases negative <;> exact ⟨rfl, rfl⟩

theorem roundedMagnitude_ofSign {negative : Bool} {n : Nat} (hn : n ≤ wholeLimit) :
    roundedMagnitude (ofSign negative n) = n := by
  by_cases hzero : n = 0
  · subst hzero
    have hpos := denominator_pos (ofSign negative 0)
    rw [roundedMagnitude, magnitude, mantissa_ofSign_zero, Nat.zero_mul]
    exact Nat.div_eq_of_lt (by omega)
  by_cases hlimit : n = wholeLimit
  · subst hlimit
    obtain ⟨hmantissa, hexponent⟩ := parts_ofSign_wholeLimit negative
    rw [roundedMagnitude, magnitude, denominator, hmantissa, hexponent]
    rfl
  obtain ⟨k, hk, hlow, hhigh⟩ := exists_log2 hzero (Nat.lt_of_le_of_ne hn hlimit)
  obtain ⟨hmantissa, hexponent⟩ := @parts_ofSign negative n k hk hlow hhigh
  exact roundedMagnitude_of_parts hk hmantissa hexponent

end Specimen.Binary64
