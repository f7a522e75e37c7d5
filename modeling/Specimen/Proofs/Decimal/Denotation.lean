import Specimen.Proofs.Binary64.Rounding
import Specimen.Proofs.Decimal.Text

/-!
# The number of a decimal text

`Denotes` says, without a reader, for which texts there is a number and which one it is: the
digits in front of a point, the digits behind it as parts of powers of ten, and a power of ten. A
text with a number is read as the double to which the number rounds (`Denotes.exists_roundsTo`).
An exponent mark without digits behind it makes a text that is not read at all
(`numeral?_of_no_digits`).
-/

namespace Specimen.Decimal

open Binary64

/-- The text is a number without an exponent; the point may have no digits behind it. -/
inductive IsMantissa (negative : Bool) : (text : List Char) → (v : ℚ) → Prop
  | intro {whole : List Char} {fraction : Option (List Char)} (hne : whole ≠ [])
      (hwhole : ∀ c ∈ whole, c.isDigit = true)
      (hfraction : ∀ c ∈ fraction.getD [], c.isDigit = true) :
      IsMantissa negative ((if negative then ['-'] else []) ++ (whole ++ fractionPart fraction))
        (natOfDigits whole + natOfDigits (fraction.getD []) / 10 ^ (fraction.getD []).length)

/-- The text is an exponent mark, a sign or none, and digits, or no digits at all. -/
inductive IsExponent : (text : List Char) → (negative : Bool) → (digits : List Char) → Prop
  | plain {mark : Char} {digits : List Char} (hmark : mark = 'e' ∨ mark = 'E')
      (hdigits : ∀ c ∈ digits, c.isDigit = true) : IsExponent (mark :: digits) false digits
  | plus {mark : Char} {digits : List Char} (hmark : mark = 'e' ∨ mark = 'E')
      (hdigits : ∀ c ∈ digits, c.isDigit = true) : IsExponent (mark :: '+' :: digits) false digits
  | minus {mark : Char} {digits : List Char} (hmark : mark = 'e' ∨ mark = 'E')
      (hdigits : ∀ c ∈ digits, c.isDigit = true) : IsExponent (mark :: '-' :: digits) true digits

/-- The text is the number of a sign and a magnitude. -/
inductive Denotes (negative : Bool) : (text : List Char) → (v : ℚ) → Prop
  | plain {text : List Char} {v : ℚ} (h : IsMantissa negative text v) : Denotes negative text v
  | scaled {text exponent digits : List Char} {below : Bool} {v : ℚ}
      (h : IsMantissa negative text v)
      (hexponent : IsExponent exponent below digits) (hne : digits ≠ []) :
      Denotes negative (text ++ exponent)
        (v * 10 ^ (if below then -(natOfDigits digits : ℤ) else natOfDigits digits))

/-- What is read of a number rounds to the right double. -/
theorem Numeral.roundsTo (n : Numeral) : RoundsTo n.negative n.value n.toFloat := by
  have hround := roundsTo_ofDecimal n.negative (natOfDigits (n.whole ++ n.fraction.getD []))
    (n.exponent.getD 0 - (n.fraction.getD []).length)
  exact hround

/-- The value of a number, with the digits on both sides of the point apart. -/
theorem Numeral.value_eq (n : Numeral) :
    n.value = (natOfDigits n.whole
        + natOfDigits (n.fraction.getD []) / 10 ^ (n.fraction.getD []).length)
      * 10 ^ n.exponent.getD 0 := by
  have hten : (10 : ℚ) ≠ 0 := by norm_num
  rw [Numeral.value, natOfDigits_append, zpow_sub₀ hten, zpow_natCast]
  push_cast
  field_simp

namespace IsExponent

variable {text digits : List Char} {below : Bool}

/-- An exponent ends the digits in front of it. -/
theorem head (h : IsExponent text below digits) :
    ∀ c ∈ text.head?, c.isDigit = false ∧ c ≠ '.' := by
  intro c hc
  have hmark : c = 'e' ∨ c = 'E' := by
    cases h <;> cases hc <;> assumption
  rcases hmark with rfl | rfl <;> decide

theorem exponentPart?_eq (h : IsExponent text below digits) :
    exponentPart? text
      = if digits = [] then none
        else some (some (if below then -(natOfDigits digits : ℤ) else natOfDigits digits)) := by
  -- a digit is no sign
  have hplain (hdigits : ∀ c ∈ digits, c.isDigit = true) : splitSign digits = (false, digits) := by
    cases digits with
    | nil => rfl
    | cons c digits =>
        have hc := hdigits c List.mem_cons_self
        unfold splitSign
        split
        · rename_i heq
          cases heq
          cases hc
        · rename_i heq
          cases heq
          cases hc
        · rfl
  have hall (hdigits : ∀ c ∈ digits, c.isDigit = true) : digits.all Char.isDigit = true :=
    List.all_eq_true.mpr hdigits
  have hplus : splitSign ('+' :: digits) = (false, digits) := rfl
  have hminus : splitSign ('-' :: digits) = (true, digits) := rfl
  cases h with
  | plain hmark hdigits =>
      rcases hmark with rfl | rfl <;> cases digits <;>
        simp [exponentPart?, hplain hdigits, hall hdigits]
  | plus hmark hdigits =>
      rcases hmark with rfl | rfl <;> cases digits <;> simp [exponentPart?, hplus, hall hdigits]
  | minus hmark hdigits =>
      rcases hmark with rfl | rfl <;> cases digits <;> simp [exponentPart?, hminus, hall hdigits]

end IsExponent

/-- A mantissa is read with what stands behind it. -/
theorem IsMantissa.numeral?_append {negative : Bool} {text tail : List Char} {v : ℚ}
    (h : IsMantissa negative text v) (htail : ∀ c ∈ tail.head?, c.isDigit = false ∧ c ≠ '.') :
    ∃ whole fraction, numeral? (text ++ tail)
        = (exponentPart? tail).map (fun e => ⟨negative, whole, fraction, e⟩)
      ∧ v = natOfDigits whole
        + natOfDigits (fraction.getD []) / 10 ^ (fraction.getD []).length := by
  cases h with
  | @intro whole fraction hne hwhole hfraction =>
      refine ⟨whole, fraction, ?_, rfl⟩
      rw [List.append_assoc, List.append_assoc]
      exact numeral?_parts hne hwhole hfraction htail

/-- A text with a number is read as the right double. -/
theorem Denotes.exists_roundsTo {negative : Bool} {text : List Char} {v : ℚ}
    (h : Denotes negative text v) :
    ∃ x, (numeral? text).map Numeral.toFloat = some x ∧ RoundsTo negative v x := by
  cases h with
  | plain h =>
      have hend : ∀ c ∈ ([] : List Char).head?, c.isDigit = false ∧ c ≠ '.' := by simp
      obtain ⟨whole, fraction, hread, rfl⟩ := h.numeral?_append hend
      rw [List.append_nil] at hread
      have hround := Numeral.roundsTo ⟨negative, whole, fraction, none⟩
      rw [Numeral.value_eq, Option.getD_none, zpow_zero, mul_one] at hround
      exact ⟨_, by rw [hread]; rfl, hround⟩
  | @scaled text exponent digits below v h hexponent hne =>
      obtain ⟨whole, fraction, hread, rfl⟩ := h.numeral?_append hexponent.head
      rw [hexponent.exponentPart?_eq, if_neg hne] at hread
      have hround := Numeral.roundsTo ⟨negative, whole, fraction,
        some (if below then -(natOfDigits digits : ℤ) else natOfDigits digits)⟩
      rw [Numeral.value_eq, Option.getD_some] at hround
      exact ⟨_, by rw [hread]; rfl, hround⟩

/-- Without digits in the exponent nothing is read. -/
theorem numeral?_of_no_digits {negative below : Bool} {text exponent : List Char} {v : ℚ}
    (h : IsMantissa negative text v) (hexponent : IsExponent exponent below []) :
    numeral? (text ++ exponent) = none := by
  obtain ⟨whole, fraction, hread, -⟩ := h.numeral?_append hexponent.head
  rw [hread, hexponent.exponentPart?_eq, if_pos rfl]
  rfl

end Specimen.Decimal
