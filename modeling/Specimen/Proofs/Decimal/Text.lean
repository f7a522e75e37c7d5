import Specimen.Proofs.Decimal.Shortest

/-!
# The text of a number

What the text of a number is read as. `Numeral.chars` writes the parts of a number and `numeral?`
finds them again (`numeral?_chars`). The text of a finite double other than zero has the digits and
the exponent of its shortest decimal in one of two arrangements (`exists_positional`,
`exists_exponent`), so what is read from it is the double itself: `exists_floatChars`.
-/

namespace Specimen.Decimal

open Binary64

/-! ## The parts of a number -/

/-- The digits after the point, if there is a point. -/
def fractionPart : Option (List Char) → List Char
  | none => []
  | some digits => '.' :: digits

/-- The exponent mark, a sign and the digits of an exponent, if there is one. -/
def exponentPart : Option Int → List Char
  | none => []
  | some e => 'e' :: (if e < 0 then '-' else '+') :: natChars e.natAbs

namespace Numeral

/-- The text of the parts of a number. -/
def chars (n : Numeral) : List Char :=
  (if n.negative then ['-'] else [])
    ++ (n.whole ++ (fractionPart n.fraction ++ exponentPart n.exponent))

/-- The rational number of the parts, without the sign. -/
def value (n : Numeral) : ℚ :=
  natOfDigits (n.whole ++ n.fraction.getD [])
    * 10 ^ (n.exponent.getD 0 - (n.fraction.getD []).length)

/-- Parts that make a number: digits before the point without a needless zero, and digits after it
if there is a point. -/
structure IsWritten (n : Numeral) : Prop where
  whole_ne_nil : n.whole ≠ []
  whole_isDigit : ∀ c ∈ n.whole, c.isDigit = true
  whole_head : n.whole.head? = some '0' → n.whole.length = 1
  fraction_isDigit : ∀ c ∈ n.fraction.getD [], c.isDigit = true
  fraction_ne_nil : n.fraction ≠ some []

end Numeral

/-- Characters of one sort end where a character follows that is not of the sort. -/
theorem span_append {p : Char → Bool} {text rest : List Char} (htext : ∀ c ∈ text, p c = true)
    (hrest : ∀ c ∈ rest.head?, p c = false) :
    (text ++ rest).takeWhile p = text ∧ (text ++ rest).dropWhile p = rest := by
  rw [List.takeWhile_append_of_pos htext, List.dropWhile_append_of_pos htext]
  cases rest with
  | nil => simp
  | cons c rest =>
      have hc : p c = false := hrest c rfl
      simp [hc]

theorem exponentPart_head {e : Option Int} {c : Char} (h : c ∈ (exponentPart e).head?) :
    c = 'e' := by
  cases e with
  | none => cases h
  | some e => simpa [exponentPart, eq_comm] using h

theorem exponentPart?_exponentPart (e : Option Int) : exponentPart? (exponentPart e) = some e := by
  cases e with
  | none => rfl
  | some e =>
      have hdigits : (natChars e.natAbs).all Char.isDigit = true :=
        List.all_eq_true.mpr fun _ => isDigit_of_mem_natChars
      have hsome : (natChars e.natAbs).isEmpty = false := by
        simpa using natChars_ne_nil e.natAbs
      have hsign : splitSign ((if e < 0 then '-' else '+') :: natChars e.natAbs)
          = (decide (e < 0), natChars e.natAbs) := by
        split <;> simp_all [splitSign]
      simp only [exponentPart, exponentPart?, hsign, hdigits, hsome, natOfDigits_natChars,
        decide_eq_true_eq]
      have hvalue : (if e < 0 then -(e.natAbs : Int) else e.natAbs) = e := by
        split <;> omega
      rw [hvalue]
      rfl

/-- What stands behind the digits of a number starts with no digit and no point. -/
theorem splitFraction_fractionPart {fraction : Option (List Char)} {tail : List Char}
    (hdigits : ∀ c ∈ fraction.getD [], c.isDigit = true)
    (htail : ∀ c ∈ tail.head?, c.isDigit = false ∧ c ≠ '.') :
    splitFraction (fractionPart fraction ++ tail) = (fraction, tail) := by
  cases fraction with
  | none =>
      cases tail with
      | nil => rfl
      | cons c tail =>
          have hpoint := (htail c rfl).2
          simp [fractionPart, splitFraction, hpoint]
  | some digits =>
      obtain ⟨htake, hdrop⟩ := span_append hdigits fun c hc => (htail c hc).1
      simp only [Option.getD_some] at htake hdrop
      simp only [fractionPart, List.cons_append, splitFraction, htake, hdrop]

/-- The parts of a number are found, whatever stands behind its digits. -/
theorem numeral?_parts {negative : Bool} {whole tail : List Char} {fraction : Option (List Char)}
    (hne : whole ≠ []) (hwhole : ∀ c ∈ whole, c.isDigit = true)
    (hfraction : ∀ c ∈ fraction.getD [], c.isDigit = true)
    (htail : ∀ c ∈ tail.head?, c.isDigit = false ∧ c ≠ '.') :
    numeral? ((if negative then ['-'] else []) ++ (whole ++ (fractionPart fraction ++ tail)))
      = (exponentPart? tail).map fun e => ⟨negative, whole, fraction, e⟩ := by
  have hminus : splitMinus ((if negative then ['-'] else [])
      ++ (whole ++ (fractionPart fraction ++ tail)))
      = (negative, whole ++ (fractionPart fraction ++ tail)) := by
    cases negative with
    | true => rfl
    | false =>
        obtain ⟨c, digits, rfl⟩ := List.exists_cons_of_ne_nil hne
        have hc : c ≠ '-' := by
          rintro rfl
          exact absurd (hwhole '-' List.mem_cons_self) (by decide)
        simp [splitMinus, hc]
  have hafter : ∀ c ∈ (fractionPart fraction ++ tail).head?, c.isDigit = false := by
    intro c hc
    cases fraction with
    | none => exact (htail c hc).1
    | some digits =>
        obtain rfl : c = '.' := by simpa [fractionPart, eq_comm] using hc
        rfl
  obtain ⟨htake, hdrop⟩ := span_append hwhole hafter
  have hsome : whole.isEmpty = false := by simpa using hne
  simp only [numeral?, hminus, htake, hdrop, splitFraction_fractionPart hfraction htail, hsome]
  rfl

/-- Reading the text of a number gives its parts back. -/
theorem numeral?_chars {n : Numeral} (h : n.IsWritten) : numeral? n.chars = some n := by
  have htail : ∀ c ∈ (exponentPart n.exponent).head?, c.isDigit = false ∧ c ≠ '.' := by
    intro c hc
    rw [exponentPart_head hc]
    decide
  rw [Numeral.chars, numeral?_parts h.whole_ne_nil h.whole_isDigit h.fraction_isDigit htail,
    exponentPart?_exponentPart]
  rfl

/-! ## The text of a decimal -/

namespace Scientific

/-- A number whose text is the text of a decimal, with the value of the decimal. It has a point or
an exponent mark. -/
structure Reads (d : Scientific) (text : List Char) (n : Numeral) : Prop where
  chars_eq : text = n.chars
  isWritten : n.IsWritten
  unsigned : n.negative = false
  marked : n.fraction.isSome = true ∨ n.exponent.isSome = true
  value_eq : n.value = d.value

theorem isDigit_of_mem_zeros {n : Nat} {c : Char} (h : c ∈ List.replicate n '0') :
    c.isDigit = true := by
  rw [List.eq_of_mem_replicate h]
  rfl

section Positional

variable {digits : List Char} {e : Int} (hdigits : LeadingDigits digits)
include hdigits

/-- The point stands before the digits. -/
theorem exists_before (hbefore : e < 0) :
    ∃ n, Reads ⟨digits, e⟩ (positionalChars ⟨digits, e⟩) n := by
  have hall : ∀ c ∈ List.replicate (-e - 1).toNat '0' ++ digits, c.isDigit = true := fun c hc =>
    (List.mem_append.mp hc).elim isDigit_of_mem_zeros (hdigits.isDigit c)
  refine ⟨⟨false, ['0'], some (List.replicate (-e - 1).toNat '0' ++ digits), none⟩, ?_,
    ⟨by simp, by simp, fun _ => rfl, hall, ?_⟩, rfl, .inl rfl, ?_⟩
  · simp [positionalChars, hbefore, Numeral.chars, fractionPart, exponentPart]
  · simp [hdigits.ne_nil]
  · have hnumber : natOfDigits ('0' :: (List.replicate (-e - 1).toNat '0' ++ digits))
        = natOfDigits digits := by
      rw [← List.cons_append, ← List.replicate_succ, natOfDigits_zeros_append]
    simp only [Numeral.value, Scientific.value, Option.getD_some, Option.getD_none,
      List.singleton_append, hnumber, List.length_append, List.length_replicate]
    congr 2
    push_cast
    omega

/-- The point stands behind the digits, and perhaps zeros. -/
theorem exists_behind (hbefore : ¬e < 0) (hbehind : digits.length ≤ e.toNat + 1) :
    ∃ n, Reads ⟨digits, e⟩ (positionalChars ⟨digits, e⟩) n := by
  obtain ⟨zeros, hzeros⟩ : ∃ n, n = e.toNat + 1 - digits.length := ⟨_, rfl⟩
  have hall : ∀ c ∈ digits ++ List.replicate zeros '0', c.isDigit = true := fun c hc =>
    (List.mem_append.mp hc).elim (hdigits.isDigit c) isDigit_of_mem_zeros
  refine ⟨⟨false, digits ++ List.replicate zeros '0', some ['0'], none⟩, ?_,
    ⟨by simp [hdigits.ne_nil], hall, ?_, by simp, by simp⟩, rfl, .inl rfl, ?_⟩
  · simp [positionalChars, hbefore, hbehind, hzeros, Numeral.chars, fractionPart, exponentPart]
  · rw [List.head?_append_of_ne_nil _ hdigits.ne_nil]
    exact fun hzero => absurd hzero hdigits.head_ne_zero
  · have hnumber : natOfDigits (digits ++ List.replicate zeros '0' ++ ['0'])
        = natOfDigits digits * 10 ^ (zeros + 1) := by
      rw [List.append_assoc, ← List.replicate_succ', natOfDigits_append_zeros]
    simp only [Numeral.value, Scientific.value, Option.getD_some, Option.getD_none, hnumber,
      List.length_singleton]
    rw [Nat.cast_mul, Nat.cast_pow, mul_assoc, Nat.cast_ofNat, ← zpow_natCast,
      ← zpow_add₀ (by norm_num)]
    congr 2
    push_cast
    omega

/-- The point stands among the digits. -/
theorem exists_among (hbefore : ¬e < 0) (hbehind : ¬digits.length ≤ e.toNat + 1) :
    ∃ n, Reads ⟨digits, e⟩ (positionalChars ⟨digits, e⟩) n := by
  have hhead : (digits.take (e.toNat + 1)).head? ≠ some '0' := by
    rw [List.head?_take, if_neg (Nat.succ_ne_zero _)]
    exact hdigits.head_ne_zero
  refine ⟨⟨false, digits.take (e.toNat + 1), some (digits.drop (e.toNat + 1)), none⟩, ?_,
    ⟨by simp [hdigits.ne_nil], fun c hc => hdigits.isDigit c (List.mem_of_mem_take hc),
      fun hzero => absurd hzero hhead, fun c hc => hdigits.isDigit c (List.mem_of_mem_drop hc), ?_⟩,
    rfl, .inl rfl, ?_⟩
  · simp [positionalChars, hbefore, hbehind, Numeral.chars, fractionPart, exponentPart]
  · simpa using hbehind
  · simp only [Numeral.value, Scientific.value, Option.getD_some, Option.getD_none,
      List.take_append_drop, List.length_drop]
    congr 2
    omega

/-- The exponent stands behind the digits, and the point behind the first one if there are more. -/
theorem exists_exponent : ∃ n, Reads ⟨digits, e⟩ (exponentChars ⟨digits, e⟩) n := by
  obtain ⟨hne, hall, hhead⟩ := hdigits
  match digits, hne with
  | [first], _ =>
      refine ⟨⟨false, [first], none, some e⟩, ?_, ⟨by simp, hall, fun _ => rfl, by simp, by simp⟩,
        rfl, .inr rfl, ?_⟩
      · simp [exponentChars, Numeral.chars, fractionPart, exponentPart]
      · simp [Numeral.value, Scientific.value]
  | first :: second :: rest, _ =>
      refine ⟨⟨false, [first], some (second :: rest), some e⟩, ?_,
        ⟨by simp, fun c hc => hall c ?_, fun _ => rfl, fun c hc => hall c ?_, by simp⟩,
        rfl, .inl rfl, ?_⟩
      · simp [exponentChars, Numeral.chars, fractionPart, exponentPart]
      · exact List.mem_of_mem_take (i := 1) hc
      · exact List.mem_cons_of_mem first hc
      · simp only [Numeral.value, Scientific.value, Option.getD_some, List.singleton_append,
          List.length_cons]
        congr 2
        push_cast
        omega

end Positional

/-- The text of a decimal is read as a number of the same value. -/
theorem exists_chars {d : Scientific} (hdigits : LeadingDigits d.digits) :
    ∃ n, d.Reads d.chars n := by
  obtain ⟨digits, e⟩ := d
  unfold Scientific.chars
  split
  · by_cases hbefore : e < 0
    · exact exists_before hdigits hbefore
    · by_cases hbehind : digits.length ≤ e.toNat + 1
      · exact exists_behind hdigits hbefore hbehind
      · exact exists_among hdigits hbefore hbehind
  · exact exists_exponent hdigits

end Scientific

/-! ## The text of a double -/

/-- A number whose value a finite double owns is read as that double, if the signs agree. -/
theorem Numeral.toFloat_of_owns {n : Numeral} {x : Float} (hfinite : x.isFinite = true)
    (hzero : mantissa x ≠ 0) (howns : Owns x n.value) (hsign : n.negative = isNegative x) :
    n.toFloat = x := by
  have hmagnitude : n.magnitude = Float.ofBits (UInt64.ofNat (magnitudeWord x)) :=
    ofDecimal_of_owns hfinite hzero howns
  unfold Numeral.toFloat
  rw [hmagnitude, hsign]
  exact ofBits_magnitudeWord hfinite

/-- Both zeros are read back. -/
theorem toFloat_zero {x : Float} (hfinite : x.isFinite = true) (hzero : mantissa x = 0) :
    Numeral.toFloat ⟨isNegative x, ['0'], some ['0'], none⟩ = x := by
  have hplace : ¬1 ≤ place x := by
    intro hplace
    have := fractionCount_le_mantissa hplace
    unfold fractionCount at this
    omega
  have hword : magnitudeWord x = 0 := by
    unfold magnitudeWord
    rw [hzero, Nat.lt_one_iff.mp (Nat.not_le.mp hplace)]
    rfl
  have hmagnitude : Numeral.magnitude ⟨isNegative x, ['0'], some ['0'], none⟩
      = Float.ofBits (UInt64.ofNat (magnitudeWord x)) := by
    rw [hword]
    rfl
  unfold Numeral.toFloat
  rw [hmagnitude]
  exact ofBits_magnitudeWord hfinite

/-- The text of a finite double is the text of a number with a point or an exponent mark, and that
number is read as the double. -/
theorem exists_floatChars {x : Float} (hfinite : x.isFinite = true) :
    ∃ n : Numeral, floatChars x = n.chars ∧ n.IsWritten
      ∧ (n.fraction.isSome = true ∨ n.exponent.isSome = true) ∧ n.toFloat = x := by
  by_cases hzero : mantissa x = 0
  · refine ⟨⟨isNegative x, ['0'], some ['0'], none⟩, ?_,
      ⟨by simp, by simp, fun _ => rfl, by simp, by simp⟩, .inl rfl, toFloat_zero hfinite hzero⟩
    cases hsign : isNegative x <;>
      simp [floatChars, hzero, hsign, Numeral.chars, fractionPart, exponentPart]
  · obtain ⟨n, hchars, hwritten, hunsigned, hmarked, hvalue⟩ :=
      Scientific.exists_chars (leadingDigits_shortest hzero)
    have howns : Owns x n.value := hvalue ▸ owns_shortest hzero
    refine ⟨{ n with negative := isNegative x }, ?_, ⟨hwritten.1, hwritten.2, hwritten.3,
      hwritten.4, hwritten.5⟩, hmarked, Numeral.toFloat_of_owns hfinite hzero howns rfl⟩
    unfold floatChars
    rw [if_neg hzero, hchars, Numeral.chars, hunsigned]
    cases hsign : isNegative x <;> simp [Numeral.chars]

end Specimen.Decimal
