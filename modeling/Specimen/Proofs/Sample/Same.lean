import Specimen.Proofs.Binary64.Value
import Specimen.Sample.Collection
import Specimen.Sample.Json

/-!
# When scalars are the same

An integer is the same as a double if the double nearest to the integer is. Two integers beyond
`wholeLimit` may have one double between them, so `sameScalar` is no equivalence there. Among exact
scalars it is one, and the values of enumerations are exact scalars.
-/

namespace Specimen

namespace Sample

open Binary64

/-! ## Numbers -/

/-- All that numbers have in common that are the same is the sign of zero. -/
theorem sameNumber_iff {a b : Float} :
    sameNumber a b = true ↔ a = b ∨ (a = 0 ∧ b = -0) ∨ (a = -0 ∧ b = 0) := by
  have hzero : (0 : Float) ≠ Float.nan := by decide
  have hminus : (-0 : Float) ≠ Float.nan := by decide
  simp only [sameNumber, Bool.or_eq_true, Bool.and_eq_true, Float.isNaN_eq_decide_eq_nan,
    decide_eq_true_eq, Float.beq_iff_ne_nan_and_eq]
  grind

theorem sameNumber_refl (a : Float) : sameNumber a a = true :=
  sameNumber_iff.mpr (.inl rfl)

theorem sameNumber_comm (a b : Float) : sameNumber a b = sameNumber b a := by
  rw [Bool.eq_iff_iff, sameNumber_iff, sameNumber_iff]
  grind

theorem sameNumber_trans {a b c : Float} (hab : sameNumber a b = true)
    (hbc : sameNumber b c = true) : sameNumber a c = true := by
  rw [sameNumber_iff] at *
  grind

/-- Numbers that are the same have the same value. -/
theorem value_eq_of_sameNumber {a b : Float} (h : sameNumber a b = true) : value a = value b := by
  have hzero : value 0 = value (-0) := by
    have hplus : numerator 0 = 0 := rfl
    have hminus : numerator (-0) = 0 := rfl
    rw [value, value, hplus, hminus, Int.cast_zero, zero_div, zero_div]
  rcases sameNumber_iff.mp h with rfl | ⟨rfl, rfl⟩ | ⟨rfl, rfl⟩
  · rfl
  · exact hzero
  · exact hzero.symm

/-- Integers of small magnitude are equal if their doubles are the same. -/
theorem eq_of_sameNumber_ofInt {m n : Int} (hm : m.natAbs ≤ wholeLimit)
    (hn : n.natAbs ≤ wholeLimit) (h : sameNumber (ofInt m) (ofInt n) = true) : m = n := by
  have hvalue := value_eq_of_sameNumber h
  rw [value_ofInt hm, value_ofInt hn] at hvalue
  exact_mod_cast hvalue

/-! ## Scalars -/

attribute [local simp] sameScalar

/-- Arrays, objects, maps and sets. -/
def isComposite : Sample → Bool
  | .array _ => true
  | .object _ => true
  | .map _ => true
  | .set _ => true
  | _ => false

/-- Nothing is the same as a composite sample. -/
theorem sameScalar_of_isComposite {a b : Sample} (h : b.isComposite = true) :
    sameScalar a b = false := by
  cases b <;> cases a <;> first | rfl | cases h

theorem sameScalar_comm (a b : Sample) : sameScalar a b = sameScalar b a := by
  cases a <;> cases b <;> simp [Bool.beq_comm, sameNumber_comm]

/-- A scalar is the same as itself, also if it is NaN. -/
theorem sameScalar_refl {a : Sample} (h : a.isComposite = false) : sameScalar a a = true := by
  cases a <;> simp_all [sameNumber_refl, isComposite]

/-- A sample that is not composite. If it is an integer, then it is the only one with its double. -/
def isExactScalar : Sample → Bool
  | .int value => decide (value.toInt.natAbs ≤ wholeLimit)
  | sample => !sample.isComposite

theorem isComposite_of_isExactScalar {a : Sample} (h : a.isExactScalar = true) :
    a.isComposite = false := by
  cases a <;> simp_all [isExactScalar, isComposite]

/-- Samples that are no numbers are the same only if they are equal. -/
theorem eq_of_sameScalar {a b : Sample} (hnumber : a.number? = none) (h : sameScalar a b = true) :
    a = b := by
  cases a <;> cases b <;> simp_all [number?]

/-- What is the same as a number is a number, and the two doubles are the same. -/
theorem sameNumber_of_sameScalar {a b : Sample} {x : Float} (hx : a.number? = some x)
    (h : sameScalar a b = true) : ∃ y, b.number? = some y ∧ sameNumber x y = true := by
  cases a <;> cases b <;> simp_all [number?, sameNumber_refl]

/-- Exact numbers are the same if their doubles are. -/
theorem sameScalar_of_sameNumber {a b : Sample} {x y : Float} (ha : a.isExactScalar = true)
    (hb : b.isExactScalar = true) (hx : a.number? = some x) (hy : b.number? = some y)
    (h : sameNumber x y = true) : sameScalar a b = true := by
  cases a <;> cases hx <;> cases b <;> cases hy
  case int.refl.int.refl value other =>
    have heq := eq_of_sameNumber_ofInt (of_decide_eq_true ha) (of_decide_eq_true hb) h
    exact beq_iff_eq.mpr (Int64.toInt_inj.mp heq)
  all_goals exact h

theorem sameScalar_trans {a b c : Sample} (ha : a.isExactScalar = true)
    (hc : c.isExactScalar = true) (hab : sameScalar a b = true) (hbc : sameScalar b c = true) :
    sameScalar a c = true := by
  cases hx : a.number? with
  | none => exact eq_of_sameScalar hx hab ▸ hbc
  | some x =>
      obtain ⟨y, hy, hxy⟩ := sameNumber_of_sameScalar hx hab
      obtain ⟨z, hz, hyz⟩ := sameNumber_of_sameScalar hy hbc
      exact sameScalar_of_sameNumber ha hc hx hz (sameNumber_trans hxy hyz)

/-- The sample of an enumeration literal is a text or a number. -/
theorem ofEnumLiteral_cases (value : EnumLiteral) :
    (∃ text, ofEnumLiteral value = .string text) ∨ (∃ number, ofEnumLiteral value = .int number)
      ∨ ∃ number, ofEnumLiteral value = .float number := by
  unfold ofEnumLiteral
  split
  · exact .inl ⟨_, rfl⟩
  · dsimp only
    split
    · exact .inr (.inl ⟨_, rfl⟩)
    · exact .inr (.inr ⟨_, rfl⟩)

/-- The samples of enumeration literals are exact scalars. -/
theorem isExactScalar_ofEnumLiteral (value : EnumLiteral) :
    (ofEnumLiteral value).isExactScalar = true := by
  cases value with
  | string text => rfl
  | number value =>
      unfold ofEnumLiteral
      dsimp only
      split
      · rename_i hwhole
        simp only [Bool.and_eq_true, decide_eq_true_eq] at hwhole
        have hsmall : (floor value).natAbs < exactLimit := hwhole.2
        unfold exactLimit at hsmall
        have hcast : (Int64.ofInt (floor value)).toInt = floor value := by
          apply Int64.toInt_ofInt_of_le <;> omega
        simp only [isExactScalar, hcast, wholeLimit, fractionCount, decide_eq_true_eq]
        omega
      · rfl

end Sample

end Specimen
