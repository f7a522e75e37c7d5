import Specimen.Proofs.Decimal.Text
import Specimen.Proofs.Json.Nesting

/-!
# Reading strings and numbers

What stands between the quotes of a written string is read as parts that decode to the string
(`exists_parts`), and the text of a number is read as a numeral, up to a character that can follow
it. The numeral stands for the number: for an integer in range in any case (`exists_integer`), for a
double if it is reproduced (`exists_double`). All finite doubles are if numerals are rounded once
(`reproduces_toFloat`).
-/

namespace Specimen.Json

open Decimal (Numeral)

/-! ## Strings -/

/-- A part of a string that stands for a character, as it is written. -/
structure Escapes (c : Char) (part : StringPart) : Prop where
  reads : ∀ rest, stringTail? (escapedChars c ++ rest)
    = (stringTail? rest).map fun (parts, rest) => (part :: parts, rest)
  decodes : ∀ parts, decode? (part :: parts) = (decode? parts).map (c :: ·)

/-- A control character is written with the two digits of its number. -/
theorem hexQuad?_control {n : Nat} (hn : n < 32) :
    hexQuad? '0' '0' (hexDigit (n / 16)) (hexDigit (n % 16)) = some n := by
  have htable : ∀ n < 32,
      hexQuad? '0' '0' (hexDigit (n / 16)) (hexDigit (n % 16)) = some n := by decide
  exact htable n hn

theorem escapes_control {c : Char} (hc : c.toNat < 32)
    (hescaped : escapedChars c
      = ['\\', 'u', '0', '0', hexDigit (c.toNat / 16), hexDigit (c.toNat % 16)]) :
    Escapes c (.unit c.toNat) := by
  constructor
  · intro rest
    rw [hescaped]
    simp only [List.cons_append, List.nil_append, stringTail?, hexQuad?_control hc]
  · intro parts
    have hlow : isLowSurrogate c.toNat = false := by
      unfold isLowSurrogate
      exact decide_eq_false (by omega)
    have hhigh : isHighSurrogate c.toNat = false := by
      unfold isHighSurrogate
      exact decide_eq_false (by omega)
    rw [decode?.eq_def]
    simp [hlow, hhigh]

/-- Other characters that need an escape have a letter of their own. -/
theorem escapes_letter {c letter : Char} (hescaped : escapedChars c = ['\\', letter])
    (hletter : letter ≠ 'u') (hsimple : simpleEscape? letter = some c) :
    Escapes c (.char c) := by
  refine ⟨fun rest => ?_, fun parts => rfl⟩
  rw [hescaped, List.cons_append, List.singleton_append, stringTail?]
  · simp only [hsimple]
  · intro _ _ _ _ _ hu
    exact absurd hu hletter

/-- A character that needs no escape is read as it stands. -/
theorem escapes_self {c : Char} (hquote : c ≠ '"') (hbackslash : c ≠ '\\') (hc : ¬c.toNat < 32)
    (hescaped : escapedChars c = [c]) : Escapes c (.char c) := by
  refine ⟨fun rest => ?_, fun parts => rfl⟩
  rw [hescaped, List.singleton_append, stringTail?]
  · simp [hbackslash, hc]
  · exact hquote
  · intro _ _ _ _ _ h _
    exact hbackslash h
  · intro _ _ h _
    exact hbackslash h

/-- A character is written with a letter, with its number, or as it stands. -/
theorem escapedChars_cases (c : Char) :
    (∃ letter, escapedChars c = ['\\', letter] ∧ letter ≠ 'u' ∧ simpleEscape? letter = some c)
      ∨ (c.toNat < 32 ∧ escapedChars c
        = ['\\', 'u', '0', '0', hexDigit (c.toNat / 16), hexDigit (c.toNat % 16)])
      ∨ (¬c.toNat < 32 ∧ c ≠ '"' ∧ c ≠ '\\' ∧ escapedChars c = [c]) := by
  unfold escapedChars
  split
  · exact .inl ⟨'"', rfl, by decide, rfl⟩
  · exact .inl ⟨'\\', rfl, by decide, rfl⟩
  · exact .inl ⟨'b', rfl, by decide, rfl⟩
  · exact .inl ⟨'f', rfl, by decide, rfl⟩
  · exact .inl ⟨'n', rfl, by decide, rfl⟩
  · exact .inl ⟨'r', rfl, by decide, rfl⟩
  · exact .inl ⟨'t', rfl, by decide, rfl⟩
  · rename_i hquote hbackslash _ _ _ _ _
    split
    · rename_i hcontrol
      exact .inr (.inl ⟨hcontrol, rfl⟩)
    · rename_i hplain
      exact .inr (.inr ⟨hplain, hquote, hbackslash, rfl⟩)

/-- Every character is read back. -/
theorem exists_escapes (c : Char) : ∃ part, Escapes c part := by
  rcases escapedChars_cases c with
    ⟨letter, hescaped, hletter, hsimple⟩ | ⟨hcontrol, hescaped⟩ | ⟨hplain, hquote, hback, hescaped⟩
  · exact ⟨_, escapes_letter hescaped hletter hsimple⟩
  · exact ⟨_, escapes_control hcontrol hescaped⟩
  · exact ⟨_, escapes_self hquote hback hplain hescaped⟩

/-- The text between the quotes is read up to the closing quote, as parts that decode to it. -/
theorem exists_parts (text : List Char) :
    ∃ parts, decode? parts = some text
      ∧ ∀ rest, stringTail? (text.flatMap escapedChars ++ '"' :: rest) = some (parts, rest) := by
  induction text with
  | nil => exact ⟨[], rfl, fun rest => rfl⟩
  | cons c text ih =>
      obtain ⟨part, hpart⟩ := exists_escapes c
      obtain ⟨parts, hdecode, hparts⟩ := ih
      refine ⟨part :: parts, ?_, fun rest => ?_⟩
      · rw [hpart.decodes, hdecode, Option.map_some]
      · rw [List.flatMap_cons, List.append_assoc, hpart.reads, hparts, Option.map_some]

/-! ## Numbers -/

/-- What follows a number does not go on with it. -/
def EndsNumber (rest : List Char) : Prop :=
  ∀ c ∈ rest.head?, isNumeralChar c = false

theorem endsNumber_nil : EndsNumber [] := by
  intro c hc
  cases hc

theorem endsNumber_cons {c : Char} (rest : List Char) (hc : isNumeralChar c = false) :
    EndsNumber (c :: rest) := by
  rintro _ ⟨⟩
  exact hc

theorem isNumeralChar_of_isDigit {c : Char} (hc : c.isDigit = true) : isNumeralChar c = true := by
  simp [isNumeralChar, hc]

theorem isNumeralChar_of_mem_chars {n : Numeral} (h : n.IsWritten) {c : Char}
    (hc : c ∈ n.chars) : isNumeralChar c = true := by
  rcases List.mem_append.mp hc with hc | hc
  · split at hc
    · rw [List.mem_singleton.mp hc]
      rfl
    · cases hc
  rcases List.mem_append.mp hc with hc | hc
  · exact isNumeralChar_of_isDigit (h.whole_isDigit c hc)
  rcases List.mem_append.mp hc with hc | hc
  · have hfraction := h.fraction_isDigit
    cases hn : n.fraction with
    | none =>
        rw [hn] at hc
        cases hc
    | some digits =>
        rw [hn] at hc hfraction
        rcases List.mem_cons.mp hc with rfl | hc
        · rfl
        · exact isNumeralChar_of_isDigit (hfraction c hc)
  · cases hn : n.exponent with
    | none =>
        rw [hn] at hc
        cases hc
    | some e =>
        rw [hn] at hc
        rcases List.mem_cons.mp hc with rfl | hc
        · rfl
        rcases List.mem_cons.mp hc with rfl | hc
        · split <;> rfl
        · exact isNumeralChar_of_isDigit (Decimal.isDigit_of_mem_natChars hc)

/-- A number begins with a digit or a minus sign. -/
theorem exists_cons_chars {n : Numeral} (h : n.IsWritten) :
    ∃ c rest, n.chars = c :: rest ∧ (c = '-' ∨ c.isDigit = true) := by
  unfold Numeral.chars
  split
  · exact ⟨'-', _, rfl, .inl rfl⟩
  · obtain ⟨c, digits, hcons⟩ := List.exists_cons_of_ne_nil h.whole_ne_nil
    refine ⟨c, _, by rw [hcons]; rfl, .inr (h.whole_isDigit c ?_)⟩
    rw [hcons]
    exact List.mem_cons_self

/-- The text of a number is a number of the grammar. -/
theorem numeral?_chars {n : Numeral} (h : n.IsWritten) : numeral? n.chars = some n := by
  unfold numeral?
  rw [Decimal.numeral?_chars h, Option.bind_some]
  have hzero : ¬(n.whole.head? = some '0' ∧ n.whole.length ≠ 1) := fun hboth =>
    hboth.2 (h.whole_head hboth.1)
  have hpoint := h.fraction_ne_nil
  rw [if_neg]
  simpa using And.intro (by simpa using hzero) hpoint

/-- A number at the front is taken as a whole. -/
theorem span_chars {n : Numeral} (h : n.IsWritten) {rest : List Char} (hrest : EndsNumber rest) :
    (n.chars ++ rest).takeWhile isNumeralChar = n.chars
      ∧ (n.chars ++ rest).dropWhile isNumeralChar = rest :=
  Decimal.span_append (fun _ => isNumeralChar_of_mem_chars h) hrest

variable {toDouble : Numeral → Float}

/-- The text of an integer in range is the text of a number that stands for it. -/
theorem exists_integer {value : Int} (hleast : leastInteger ≤ value)
    (hgreatest : value ≤ greatestInteger) :
    ∃ n : Numeral, Decimal.intChars value = n.chars ∧ n.IsWritten
      ∧ ofNumeral? toDouble n = some (.integer value) := by
  refine ⟨⟨decide (value < 0), Decimal.natChars value.natAbs, none, none⟩, ?_,
    ⟨Decimal.natChars_ne_nil _, fun c => Decimal.isDigit_of_mem_natChars, ?_, by simp, by simp⟩,
    ?_⟩
  · unfold Decimal.intChars Numeral.chars
    by_cases hnegative : value < 0 <;>
      simp [hnegative, Decimal.fractionPart, Decimal.exponentPart]
  · intro hhead
    rcases Nat.eq_zero_or_pos value.natAbs with hzero | hpos
    · rw [hzero]
      rfl
    · exact absurd hhead (Decimal.head?_natChars_ne_zero hpos)
  · unfold ofNumeral?
    simp only [Decimal.natOfDigits_natChars]
    by_cases hnegative : value < 0
    · have hsize : -(value.natAbs : Int) = value := by omega
      have hrange : decide (0 < value.natAbs ∧ leastInteger ≤ value) = true :=
        decide_eq_true ⟨by omega, hleast⟩
      simp only [hnegative, decide_true, if_true, Option.isNone_none, Bool.and_self, hsize, hrange]
    · have hsize : (value.natAbs : Int) = value := by omega
      simp [hnegative, hsize, hgreatest]

/-- The text of a finite double is the text of a number with a point or an exponent mark, which is a
double in a document. -/
theorem exists_numeral {value : Float} (hfinite : value.isFinite = true) :
    ∃ n : Numeral, Decimal.floatChars value = n.chars ∧ n.IsWritten ∧ n.toFloat = value
      ∧ ∀ toDouble : Numeral → Float, ofNumeral? toDouble n
        = if (toDouble n).isFinite then some (.double (toDouble n)) else none := by
  obtain ⟨n, hchars, hwritten, hmarked, hvalue⟩ := Decimal.exists_floatChars hfinite
  refine ⟨n, hchars, hwritten, hvalue, fun toDouble => ?_⟩
  have hnotInteger : (n.fraction.isNone && n.exponent.isNone) = false := by
    rcases hmarked with h | h <;> simp [← Option.not_isSome, h]
  unfold ofNumeral?
  simp only [hnotInteger, Bool.false_and, Bool.false_eq_true, if_false]

/-- What is reproduced is what the numeral of the text is turned into. -/
theorem reproduces_iff {value : Float} {n : Numeral} (hchars : Decimal.floatChars value = n.chars)
    (h : n.IsWritten) : Reproduces toDouble value ↔ toDouble n = value := by
  rw [Reproduces, hchars, numeral?_chars h, Option.map_some, Option.some.injEq]

/-- Rounding once reproduces every finite double. -/
theorem reproduces_toFloat {value : Float} (hfinite : value.isFinite = true) :
    Reproduces Numeral.toFloat value := by
  obtain ⟨n, hchars, hwritten, hvalue, -⟩ := exists_numeral hfinite
  exact (reproduces_iff hchars hwritten).mpr hvalue

/-- The text of a finite double that is reproduced is the text of a number that stands for it. -/
theorem exists_double {value : Float} (hfinite : value.isFinite = true)
    (hvalue : Reproduces toDouble value) :
    ∃ n : Numeral, Decimal.floatChars value = n.chars ∧ n.IsWritten
      ∧ ofNumeral? toDouble n = some (.double value) := by
  obtain ⟨n, hchars, hwritten, -, hnumeral⟩ := exists_numeral hfinite
  refine ⟨n, hchars, hwritten, ?_⟩
  rw [hnumeral, (reproduces_iff hchars hwritten).mp hvalue, if_pos hfinite]

/-- A tree whose numbers have a text is legible where numerals are rounded once. -/
theorem Writable.legible {json : Json} (h : json.Writable) : json.Legible Numeral.toFloat := by
  induction h with
  | null => exact .null
  | bool value => exact .bool value
  | integer hleast hgreatest => exact .integer hleast hgreatest
  | double hfinite => exact .double hfinite (reproduces_toFloat hfinite)
  | string value => exact .string value
  | array _ ih => exact .array ih
  | object _ ih => exact .object ih

end Specimen.Json
