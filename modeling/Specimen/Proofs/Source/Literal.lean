import Specimen.Proofs.Binary64.Whole
import Specimen.Proofs.Decimal.Digits
import Specimen.Source.Literal

/-!
# Writing literals

Texts between double quotes, and whole numbers. Reading a literal gives back what was written:
`unquote_quote`, `numberValue?_wholeChars`.
-/

namespace Specimen

namespace Decimal

/-- The digits of a number after a minus sign or without one. -/
def wholeChars (negative : Bool) (n : Nat) : List Char :=
  if negative then '-' :: natChars n else natChars n

theorem wholeChars_ne_nil (negative : Bool) (n : Nat) : wholeChars negative n ≠ [] := by
  cases negative with
  | true => exact List.cons_ne_nil _ _
  | false => exact natChars_ne_nil n

theorem splitMinus_wholeChars (negative : Bool) (n : Nat) :
    splitMinus (wholeChars negative n) = (negative, natChars n) := by
  cases negative with
  | true => rfl
  | false =>
      unfold wholeChars
      rw [if_neg Bool.false_ne_true]
      unfold splitMinus
      split
      · rename_i rest hdigits
        have hminus : '-' ∈ natChars n := hdigits ▸ List.mem_cons_self
        exact absurd (isDigit_of_mem_natChars hminus) (by decide)
      · rfl

theorem numeral?_wholeChars (negative : Bool) (n : Nat) :
    numeral? (wholeChars negative n) = some ⟨negative, natChars n, none, none⟩ := by
  have hall : ∀ c ∈ natChars n, c.isDigit = true := fun c => isDigit_of_mem_natChars
  have hwhole : (natChars n).takeWhile Char.isDigit = natChars n :=
    List.takeWhile_eq_self_iff.mpr hall
  have hafter : (natChars n).dropWhile Char.isDigit = [] :=
    List.dropWhile_eq_nil_iff.mpr hall
  have hsome : (natChars n).isEmpty = false := by
    simpa using natChars_ne_nil n
  simp only [numeral?, splitMinus_wholeChars, hwhole, hafter, splitFraction, hsome, exponentPart?]
  rfl

theorem toFloat_whole (negative : Bool) (n : Nat) :
    Numeral.toFloat ⟨negative, natChars n, none, none⟩ = Binary64.ofSign negative n := by
  have hmagnitude : Numeral.magnitude ⟨negative, natChars n, none, none⟩
      = Binary64.ofQuotient n 1 := by
    simp only [Numeral.magnitude, Option.getD_none, List.append_nil, natOfDigits_natChars,
      List.length_nil, Binary64.ofDecimal]
    split
    · rename_i hzero
      rw [hzero]
    · rw [if_neg (by decide), if_neg (by omega)]
      simp
  cases negative <;> simp [Numeral.toFloat, Binary64.ofSign, hmagnitude]

end Decimal

namespace Source

open Decimal

/-! ## Numbers -/

theorem mem_wholeChars {negative : Bool} {n : Nat} {c : Char} (h : c ∈ wholeChars negative n) :
    c = '-' ∨ c.isDigit = true := by
  unfold wholeChars at h
  split at h
  · rcases List.mem_cons.mp h with h | h
    · exact .inl h
    · exact .inr (isDigit_of_mem_natChars h)
  · exact .inr (isDigit_of_mem_natChars h)

theorem numberValue?_wholeChars (negative : Bool) (n : Nat) :
    numberValue? (wholeChars negative n) = some (Binary64.ofSign negative n) := by
  have hclean : (wholeChars negative n).filter (· != '_') = wholeChars negative n := by
    apply List.filter_eq_self.mpr
    intro c hc
    rcases mem_wholeChars hc with rfl | hdigit
    · decide
    · refine bne_iff_ne.mpr ?_
      rintro rfl
      exact absurd hdigit (by decide)
  have hnotHex : ∀ {first second : Char} {rest : List Char},
      wholeChars negative n = first :: second :: rest → second ≠ 'x' ∧ second ≠ 'X' := by
    intro first second rest hchars
    have hmem : second ∈ wholeChars negative n := hchars ▸ by simp
    rcases mem_wholeChars hmem with rfl | hdigit
    · decide
    · constructor <;> rintro rfl <;> exact absurd hdigit (by decide)
  unfold numberValue?
  rw [hclean]
  split
  · rename_i hchars
    exact absurd rfl (hnotHex hchars).1
  · rename_i hchars
    exact absurd rfl (hnotHex hchars).2
  · rw [numeral?_wholeChars, Option.map_some, toFloat_whole]

/-! ## Quoted texts -/

/-- A character between double quotes. -/
def escapeChar (c : Char) : List Char :=
  if c = '\\' then ['\\', '\\']
  else if c = '"' then ['\\', '"']
  else if c = '\n' then ['\\', 'n']
  else [c]

/-- The characters between double quotes. -/
def escape (text : List Char) : List Char :=
  text.flatMap escapeChar

/-- A text between double quotes. -/
def quote (text : List Char) : List Char :=
  '"' :: (escape text ++ ['"'])

/-- A character stands for itself, or it is protected by a backslash. -/
theorem escapeChar_cases (c : Char) :
    (escapeChar c = [c] ∧ c ≠ '\\' ∧ c ≠ '"' ∧ c ≠ '\n')
      ∨ ∃ d, escapeChar c = ['\\', d] ∧ d ≠ '\n' := by
  unfold escapeChar
  split
  · exact .inr ⟨'\\', rfl, by decide⟩
  · rename_i hbackslash
    split
    · exact .inr ⟨'"', rfl, by decide⟩
    · rename_i hquote
      split
      · exact .inr ⟨'n', rfl, by decide⟩
      · rename_i hbreak
        exact .inl ⟨rfl, hbackslash, hquote, hbreak⟩

theorem unescape_escapeChar (c : Char) (rest : List Char) :
    unescape (escapeChar c ++ rest) = c :: unescape rest := by
  unfold escapeChar
  split
  · rename_i hc
    simp [unescape, hc]
  · rename_i hbackslash
    split
    · rename_i hc
      simp [unescape, hc]
    · split
      · rename_i hc
        simp [unescape, hc]
      · rw [List.singleton_append, unescape]
        · intro hc
          exact absurd hc hbackslash
        · intro _ _ hc
          exact absurd hc hbackslash

theorem unescape_escape (text : List Char) : unescape (escape text) = text := by
  induction text with
  | nil => rfl
  | cons c text ih =>
      rw [escape, List.flatMap_cons, unescape_escapeChar, ← escape, ih]

theorem unquote_quote (text : List Char) : unquote (quote text) = text := by
  rw [unquote, quote, List.tail_cons, List.dropLast_concat, unescape_escape]

end Source

end Specimen
