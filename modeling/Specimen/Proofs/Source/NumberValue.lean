import Specimen.Proofs.Decimal.Denotation
import Specimen.Proofs.Source.NegativeValue

/-!
# The values of numbers

A number token may have underscores, which mean nothing. What is left is a number as a rule: a
decimal one, or a hexadecimal one behind `0x`. The exceptions are the texts with an exponent mark
or with `0x` and no digit behind it (`MissesDigits`), for underscores count as digits when tokens
are found. A member with a number as its value gets the double to which the number rounds, and a
text without a number is refused: `declarationsOfText_of_numberToken`.
-/

namespace Specimen.Source

open Pattern Decimal Binary64

/-- The character is the hexadecimal digit of the number, in either case. -/
def IsHexDigitOf (c : Char) (k : Nat) : Prop :=
  k < 16 ∧ (c = Nat.digitChar k ∨ c = (Nat.digitChar k).toUpper)

/-- The text is the number of a sign and a magnitude, decimal or in base sixteen. -/
inductive IsNumeralOf : (text : List Char) → (negative : Bool) → (v : ℚ) → Prop
  | decimal {text : List Char} {negative : Bool} {v : ℚ} (h : Decimal.Denotes negative text v) :
      IsNumeralOf text negative v
  | hex {mark : Char} {digits : List Char} {values : List Nat} (hmark : mark = 'x' ∨ mark = 'X')
      (hne : digits ≠ []) (hdigits : List.Forall₂ IsHexDigitOf digits values) :
      IsNumeralOf ('0' :: mark :: digits) false (Nat.ofDigits 16 values.reverse : Nat)

/-- The text ends behind an exponent mark and perhaps its sign, or behind `0x`. -/
inductive MissesDigits : (text : List Char) → Prop
  | exponent {negative below : Bool} {text exponent : List Char} {v : ℚ}
      (h : IsMantissa negative text v) (hexponent : IsExponent exponent below []) :
      MissesDigits (text ++ exponent)
  | hex {mark : Char} (hmark : mark = 'x' ∨ mark = 'X') : MissesDigits ['0', mark]

/-! ## Texts of decimal numbers -/

section Underscores

variable {text : List Char}

theorem isDigit_of_many (h : Matches (.many digitOrBlank) text) :
    ∀ c ∈ withoutUnderscores text, c.isDigit = true := by
  have hwithin : (Pattern.many digitOrBlank).Within fun c => c.isDigit || c == '_' := fun _ => id
  intro c hc
  obtain ⟨hmem, hunderscore⟩ := List.mem_filter.mp hc
  simpa [bne_iff_ne.mp hunderscore] using hwithin.all_of_matches h c hmem

theorem isDigit_of_repeated (h : Matches (repeated digitOrBlank) text) :
    ∀ c ∈ withoutUnderscores text, c.isDigit = true := by
  obtain ⟨first, more, rfl, hfirst, hmore⟩ := matches_seq_iff.mp h
  exact isDigit_of_many (.more hfirst hmore)

theorem withoutUnderscores_append (text more : List Char) :
    withoutUnderscores (text ++ more) = withoutUnderscores text ++ withoutUnderscores more :=
  List.filter_append ..

theorem exists_fraction (h : Matches (optional (.seq (anyOf ['.']) (repeated digitOrBlank))) text) :
    ∃ fraction, withoutUnderscores text = fractionPart fraction
      ∧ ∀ c ∈ fraction.getD [], c.isDigit = true := by
  rcases matches_either_iff.mp h with h | h
  · obtain ⟨point, digits, rfl, hpoint, hdigits⟩ := matches_seq_iff.mp h
    obtain ⟨c, hc, rfl⟩ := matches_one_iff.mp hpoint
    obtain rfl : c = '.' := by simpa using hc
    refine ⟨some (withoutUnderscores digits), ?_, isDigit_of_repeated hdigits⟩
    rw [withoutUnderscores_append]
    rfl
  · obtain rfl := matches_empty_iff.mp h
    exact ⟨none, rfl, by simp⟩

theorem exists_exponent
    (h : Matches (optional (.sequence
      [anyOf ['e', 'E'], optional (anyOf ['+', '-']), repeated digitOrBlank])) text) :
    withoutUnderscores text = []
    ∨ ∃ below digits, IsExponent (withoutUnderscores text) below digits := by
  rcases matches_either_iff.mp h with h | h
  · right
    obtain ⟨mark, more, rfl, hmark, hmore⟩ := matches_seq_iff.mp h
    obtain ⟨sign, more, rfl, hsign, hmore⟩ := matches_seq_iff.mp hmore
    obtain ⟨digits, nothing, rfl, hdigits, hnothing⟩ := matches_seq_iff.mp hmore
    obtain ⟨c, hc, rfl⟩ := matches_one_iff.mp hmark
    obtain rfl := matches_empty_iff.mp hnothing
    have hmark : c = 'e' ∨ c = 'E' := by simpa using hc
    have hunderscore : c ≠ '_' := by
      rcases hmark with rfl | rfl <;> decide
    have hdigits := isDigit_of_repeated hdigits
    have hclean : withoutUnderscores ([c] ++ (sign ++ (digits ++ [])))
        = c :: (withoutUnderscores sign ++ withoutUnderscores digits) := by
      simp [withoutUnderscores, hunderscore]
    rw [hclean]
    rcases matches_either_iff.mp hsign with hsign | hsign
    · obtain ⟨d, hd, rfl⟩ := matches_one_iff.mp hsign
      have hd : d = '+' ∨ d = '-' := by simpa using hd
      rcases hd with rfl | rfl
      · exact ⟨false, _, .plus hmark hdigits⟩
      · exact ⟨true, _, .minus hmark hdigits⟩
    · obtain rfl := matches_empty_iff.mp hsign
      exact ⟨false, _, .plain hmark hdigits⟩
  · left
    rw [matches_empty_iff.mp h]
    rfl

/-- A decimal number without its underscores is a mantissa, perhaps with an exponent. -/
theorem exists_mantissa (h : Matches decimalNumber text) :
    ∃ negative mantissa v exponent, withoutUnderscores text = mantissa ++ exponent
      ∧ IsMantissa negative mantissa v
      ∧ (exponent = [] ∨ ∃ below digits, IsExponent exponent below digits) := by
  obtain ⟨sign, unsigned, hsign, rfl, hunsigned⟩ := matches_decimalNumber_iff.mp h
  obtain ⟨first, more, rfl, hfirst, hmore⟩ := matches_seq_iff.mp hunsigned
  obtain ⟨run, more, rfl, hrun, hmore⟩ := matches_seq_iff.mp hmore
  obtain ⟨point, more, rfl, hpoint, hmore⟩ := matches_seq_iff.mp hmore
  obtain ⟨exponent, nothing, rfl, hexponent, hnothing⟩ := matches_seq_iff.mp hmore
  obtain ⟨digit, hdigit, rfl⟩ := matches_one_iff.mp hfirst
  obtain rfl := matches_empty_iff.mp hnothing
  obtain ⟨fraction, hfraction, hdigits⟩ := exists_fraction hpoint
  obtain ⟨negative, hnegative⟩ : ∃ negative : Bool, withoutUnderscores sign
      = if negative then ['-'] else [] := by
    rcases hsign with rfl | rfl
    · exact ⟨false, rfl⟩
    · exact ⟨true, rfl⟩
  have hunderscore : digit ≠ '_' := by
    rintro rfl
    cases hdigit
  have hone : withoutUnderscores [digit] = [digit] := by simp [withoutUnderscores, hunderscore]
  have hwhole : ∀ c ∈ digit :: withoutUnderscores run, c.isDigit = true :=
    List.forall_mem_cons.mpr ⟨hdigit, isDigit_of_many hrun⟩
  refine ⟨negative, _, _, withoutUnderscores exponent, ?_,
    .intro (List.cons_ne_nil _ _) hwhole hdigits, exists_exponent hexponent⟩
  rw [withoutUnderscores_append, withoutUnderscores_append, withoutUnderscores_append,
    withoutUnderscores_append, hnegative, hone, hfraction, List.append_nil]
  simp

end Underscores

/-! ## Hexadecimal numbers -/

theorem digit?_eq {c : Char} {k : Nat} (h : IsHexDigitOf c k) : Radix.digit? 16 c = some k := by
  have hall : ∀ k < 16, Radix.digit? 16 (Nat.digitChar k) = some k
      ∧ Radix.digit? 16 (Nat.digitChar k).toUpper = some k := by decide
  obtain ⟨hk, rfl | rfl⟩ := h
  · exact (hall k hk).1
  · exact (hall k hk).2

/-- Digits are read from the left, and each one counts by its place. -/
theorem extend?_eq {digits : List Char} {values : List Nat}
    (h : List.Forall₂ IsHexDigitOf digits values) (n : Nat) :
    Radix.extend? 16 n digits = some (n * 16 ^ digits.length + Nat.ofDigits 16 values.reverse) := by
  induction h generalizing n with
  | nil => simp [Radix.extend?]
  | @cons c k digits values hdigit hmore ih =>
      have hlength : values.reverse.length = digits.length := by
        rw [List.length_reverse, hmore.length_eq]
      rw [Radix.extend?, digit?_eq hdigit]
      dsimp only
      rw [ih, List.reverse_cons, Nat.ofDigits_append, hlength, Nat.ofDigits_singleton,
        List.length_cons, pow_succ]
      congr 1
      ring

theorem natOfDigits?_eq {digits : List Char} {values : List Nat} (hne : digits ≠ [])
    (h : List.Forall₂ IsHexDigitOf digits values) :
    Radix.natOfDigits? 16 digits = some (Nat.ofDigits 16 values.reverse) := by
  rw [Radix.natOfDigits?, if_neg (by simpa using hne), extend?_eq h, Nat.zero_mul, Nat.zero_add]

theorem exists_isHexDigitOf {c : Char} (h : isHexDigit c = true) : ∃ k, IsHexDigitOf c k := by
  have hall : ∀ n < 128, isHexDigit (Char.ofNat n) = true →
      ∃ k < 16, Char.ofNat n = Nat.digitChar k ∨ Char.ofNat n = (Nat.digitChar k).toUpper := by
    decide +kernel
  exact of_toNat_lt (p := fun c => isHexDigit c = true → ∃ k, IsHexDigitOf c k) hall
    (toNat_lt_of_isHexDigit h) h

theorem exists_hexDigits {digits : List Char} (h : ∀ c ∈ digits, isHexDigit c = true) :
    ∃ values, List.Forall₂ IsHexDigitOf digits values := by
  induction digits with
  | nil => exact ⟨[], .nil⟩
  | cons c digits ih =>
      obtain ⟨hc, hdigits⟩ := List.forall_mem_cons.mp h
      obtain ⟨k, hk⟩ := exists_isHexDigitOf hc
      obtain ⟨values, hvalues⟩ := ih hdigits
      exact ⟨k :: values, .cons hk hvalues⟩

/-- A hexadecimal number without its underscores is a mark and digits. -/
theorem exists_hex {text : List Char} (h : Matches hexNumber text) :
    ∃ mark digits, (mark = 'x' ∨ mark = 'X') ∧ withoutUnderscores text = '0' :: mark :: digits
      ∧ ∀ c ∈ digits, isHexDigit c = true := by
  obtain ⟨zero, more, rfl, hzero, hmore⟩ := matches_seq_iff.mp h
  obtain ⟨letter, more, rfl, hletter, hmore⟩ := matches_seq_iff.mp hmore
  obtain ⟨digits, nothing, rfl, hdigits, hnothing⟩ := matches_seq_iff.mp hmore
  obtain ⟨c, hc, rfl⟩ := matches_one_iff.mp hzero
  obtain ⟨mark, hmark, rfl⟩ := matches_one_iff.mp hletter
  obtain rfl := matches_empty_iff.mp hnothing
  obtain rfl : c = '0' := by simpa using hc
  have hmark : mark = 'x' ∨ mark = 'X' := by simpa using hmark
  refine ⟨mark, withoutUnderscores digits, hmark, ?_, ?_⟩
  · rcases hmark with rfl | rfl <;> simp [withoutUnderscores]
  · have hwithin : (repeated (.one fun c => isHexDigit c || c == '_')).Within
        fun c => isHexDigit c || c == '_' := ⟨fun _ => id, fun _ => id⟩
    intro c hc
    obtain ⟨hmem, hunderscore⟩ := List.mem_filter.mp hc
    simpa [bne_iff_ne.mp hunderscore] using hwithin.all_of_matches hdigits c hmem

/-! ## The value of a number token -/

/-- A number token has a number, unless digits are missing. -/
theorem IsNumberText.isNumeralOf_or_missesDigits {text : List Char} (h : IsNumberText text) :
    (∃ negative v, IsNumeralOf (withoutUnderscores text) negative v)
      ∨ MissesDigits (withoutUnderscores text) := by
  rcases isNumberText_iff_matches.mp h with h | h
  · obtain ⟨negative, mantissa, v, exponent, htext, hmantissa, hexponent⟩ := exists_mantissa h
    rw [htext]
    rcases hexponent with rfl | ⟨below, digits, hexponent⟩
    · rw [List.append_nil]
      exact .inl ⟨negative, v, .decimal (.plain hmantissa)⟩
    · cases digits with
      | nil => exact .inr (.exponent hmantissa hexponent)
      | cons c digits => exact .inl ⟨negative, _, .decimal (.scaled hmantissa hexponent (by simp))⟩
  · obtain ⟨mark, digits, hmark, htext, hdigits⟩ := exists_hex h
    rw [htext]
    cases digits with
    | nil => exact .inr (.hex hmark)
    | cons c digits =>
        obtain ⟨values, hvalues⟩ := exists_hexDigits hdigits
        exact .inl ⟨false, _, .hex hmark (by simp) hvalues⟩

/-! The letter of a hexadecimal number is in no decimal one. -/

theorem ne_of_isDigit {c : Char} (h : c.isDigit = true) : c ≠ 'x' ∧ c ≠ 'X' := by
  constructor <;> rintro rfl <;> cases h

theorem ne_of_isMantissa {negative : Bool} {text : List Char} {v : ℚ}
    (h : IsMantissa negative text v) : ∀ c ∈ text, c ≠ 'x' ∧ c ≠ 'X' := by
  cases h with
  | @intro whole fraction hne hwhole hfraction =>
      intro c hc
      rcases List.mem_append.mp hc with hc | hc
      · cases negative with
        | true =>
            obtain rfl := List.mem_singleton.mp hc
            decide
        | false => cases hc
      rcases List.mem_append.mp hc with hc | hc
      · exact ne_of_isDigit (hwhole c hc)
      cases fraction with
      | none => cases hc
      | some digits =>
          rcases List.mem_cons.mp hc with rfl | hc
          · decide
          · exact ne_of_isDigit (hfraction c hc)

theorem ne_of_isExponent {below : Bool} {text digits : List Char}
    (h : IsExponent text below digits) : ∀ c ∈ text, c ≠ 'x' ∧ c ≠ 'X' := by
  have hletter {c : Char} (hc : c = 'e' ∨ c = 'E') : c ≠ 'x' ∧ c ≠ 'X' := by
    rcases hc with rfl | rfl <;> decide
  cases h with
  | plain hmark hdigits =>
      exact List.forall_mem_cons.mpr ⟨hletter hmark, fun c hc => ne_of_isDigit (hdigits c hc)⟩
  | plus hmark hdigits =>
      refine List.forall_mem_cons.mpr ⟨hletter hmark, List.forall_mem_cons.mpr ⟨by decide, ?_⟩⟩
      exact fun c hc => ne_of_isDigit (hdigits c hc)
  | minus hmark hdigits =>
      refine List.forall_mem_cons.mpr ⟨hletter hmark, List.forall_mem_cons.mpr ⟨by decide, ?_⟩⟩
      exact fun c hc => ne_of_isDigit (hdigits c hc)

theorem ne_of_decimalNumber {text : List Char} (h : Matches decimalNumber text) :
    ∀ c ∈ withoutUnderscores text, c ≠ 'x' ∧ c ≠ 'X' := by
  obtain ⟨negative, mantissa, v, exponent, htext, hmantissa, hexponent⟩ := exists_mantissa h
  rw [htext]
  refine List.forall_mem_append.mpr ⟨ne_of_isMantissa hmantissa, ?_⟩
  rcases hexponent with rfl | ⟨below, digits, hexponent⟩
  · simp
  · exact ne_of_isExponent hexponent

/-- Behind `0x` stands what is read in base sixteen. -/
theorem numberValue?_of_hex {text : List Char} {mark : Char} {digits : List Char}
    (hmark : mark = 'x' ∨ mark = 'X') (h : withoutUnderscores text = '0' :: mark :: digits) :
    numberValue? text = hexValue? digits := by
  rw [withoutUnderscores] at h
  rw [numberValue?, h]
  rcases hmark with rfl | rfl <;> rfl

/-- A decimal number has the double to which it rounds, and so has a hexadecimal one below
`2 ^ 63`. -/
theorem IsNumeralOf.exists_roundsTo {text : List Char} {negative : Bool} {v : ℚ}
    (h : IsNumeralOf (withoutUnderscores text) negative v)
    (hnumber : IsNumberText text) (hlimit : Matches hexNumber text → v < 2 ^ 63) :
    ∃ x, numberValue? text = some x ∧ RoundsTo negative v x := by
  generalize htext : withoutUnderscores text = clean at h
  cases h with
  | decimal h =>
      obtain ⟨x, hread, hround⟩ := h.exists_roundsTo
      refine ⟨x, ?_, hround⟩
      rw [numberValue?_of_not_hex, htext, hread]
      rw [htext]
      cases h with
      | plain h => exact ne_of_isMantissa h
      | scaled h hexponent =>
          exact List.forall_mem_append.mpr ⟨ne_of_isMantissa h, ne_of_isExponent hexponent⟩
  | @hex mark digits values hmark hne hdigits =>
      refine ⟨ofInt (Nat.ofDigits 16 values.reverse : Nat), ?_, roundsTo_ofInt _⟩
      have hhex : Matches hexNumber text := by
        refine (isNumberText_iff_matches.mp hnumber).resolve_left fun hdecimal => ?_
        have hletter := ne_of_decimalNumber hdecimal mark (by simp [htext])
        exact hmark.elim hletter.1 hletter.2
      have hlt : Nat.ofDigits 16 values.reverse < 2 ^ 63 := by exact_mod_cast hlimit hhex
      rw [numberValue?_of_hex hmark htext, hexValue?, natOfDigits?_eq hne hdigits]
      exact if_neg (Nat.not_le.mpr hlt)

/-- Without its digits a number has no value. -/
theorem MissesDigits.numberValue?_eq {text : List Char}
    (h : MissesDigits (withoutUnderscores text)) : numberValue? text = none := by
  generalize htext : withoutUnderscores text = clean at h
  cases h with
  | exponent h hexponent =>
      rw [numberValue?_of_not_hex, htext, numeral?_of_no_digits h hexponent]
      · rfl
      · rw [htext]
        exact List.forall_mem_append.mpr ⟨ne_of_isMantissa h, ne_of_isExponent hexponent⟩
  | hex hmark =>
      rw [numberValue?_of_hex hmark htext]
      rfl

/-- A member whose value is one number token has the double to which the number rounds, if there
is a number, and if it is below `2 ^ 63` where it is hexadecimal. There is a number unless no
digit stands behind an exponent mark or behind `0x`, and then the document is refused. -/
theorem declarationsOfText_of_numberToken {text : String} {site : MemberSite} {literal : Token}
    {rest : List Token} (hsite : site.StandsAt (Tokens.ofText text.toList) (literal :: rest))
    (hkind : literal.kind = .number) (hend : atMemberEnd rest = true) :
    (∀ negative v, IsNumeralOf (withoutUnderscores literal.text) negative v →
        (Matches hexNumber literal.text → v < 2 ^ 63) →
        ∃ x, RoundsTo negative v x
          ∧ declarationsOfText text
            = (site.goOn (Tokens.ofText text.toList).tail (.number x) rest).mapError
                (·.report text.toList))
      ∧ ((∃ negative v, IsNumeralOf (withoutUnderscores literal.text) negative v)
        ∨ MissesDigits (withoutUnderscores literal.text))
      ∧ (MissesDigits (withoutUnderscores literal.text) →
        declarationsOfText text
          = .error
            (Fault.report ⟨.invalidNumber (String.ofList literal.text), rest⟩ text.toList)) := by
  have hread := hsite.declarationsOfText_number hkind hend
  have hnumber : IsNumberText literal.text :=
    .of_mem (hsite.suffix.subset List.mem_cons_self) hkind
  refine ⟨fun negative v hnumeral hlimit => ?_, hnumber.isNumeralOf_or_missesDigits,
    fun hmisses => ?_⟩
  · obtain ⟨x, hvalue, hround⟩ := hnumeral.exists_roundsTo hnumber hlimit
    refine ⟨x, hround, ?_⟩
    rw [hread, numberLiteral, hvalue]
    rfl
  · rw [hread, numberLiteral, hmisses.numberValue?_eq]
    rfl

set_option maxRecDepth 1024 in
/-- A number with underscores and an exponent. -/
theorem declarationsOfText_of_numberToken_scaled :
    ∃ x, RoundsTo false (5 / 2) x
      ∧ declarationsOfText "enum E \x7b A = 2_5e-1_ \x7d"
        = .ok [⟨"E", .enumeration [⟨"A", some (.number x)⟩]⟩] := by
  let site : MemberSite := ⟨[], "E", [], "A"⟩
  let keyword : Token := ⟨.keyword .enum, [], ['e', 'n', 'u', 'm'], 0⟩
  let name : Token := ⟨.identifier, [' '], ['E'], 5⟩
  let brace : Token := ⟨.mark .openBrace, [' '], ['\x7b'], 7⟩
  let member : Token := ⟨.identifier, [' '], ['A'], 9⟩
  let equals : Token := ⟨.mark .equals, [' '], ['='], 11⟩
  let literal : Token := ⟨.number, [' '], ['2', '_', '5', 'e', '-', '1', '_'], 13⟩
  let closing : Token := ⟨.mark .closeBrace, [' '], ['\x7d'], 21⟩
  have htokens : Tokens.ofText "enum E \x7b A = 2_5e-1_ \x7d".toList
      = ⟨[keyword, name, brace, member, equals, literal, closing], []⟩ := by
    dsimp only [keyword, name, brace, member, equals, literal, closing]
    cbv
  have hsite :
      site.StandsAt (Tokens.ofText "enum E \x7b A = 2_5e-1_ \x7d".toList) [literal, closing] :=
    htokens ▸ MemberSite.standsAt_first keyword name brace member equals rfl rfl rfl rfl rfl _ []
  have hmantissa := @IsMantissa.intro false ['2', '5'] none (by simp) (by simp) (by simp)
  have hexponent : IsExponent ['e', '-', '1'] true ['1'] := .minus (.inl rfl) (by simp)
  have hdenotes : Denotes false ['2', '5', 'e', '-', '1']
      ((natOfDigits ['2', '5'] + natOfDigits [] / 10 ^ 0) * 10 ^ (-(natOfDigits ['1'] : ℤ))) :=
    .scaled hmantissa hexponent (by simp)
  have hvalue : ((natOfDigits ['2', '5'] + natOfDigits [] / 10 ^ 0)
      * 10 ^ (-(natOfDigits ['1'] : ℤ)) : ℚ) = 5 / 2 := by
    have htwenty : natOfDigits ['2', '5'] = 25 := rfl
    have hone : natOfDigits ['1'] = 1 := rfl
    have hzero : natOfDigits [] = 0 := rfl
    rw [htwenty, hone, hzero]
    norm_num
  rw [hvalue] at hdenotes
  have hnumeral : IsNumeralOf (withoutUnderscores literal.text) false (5 / 2) := .decimal hdenotes
  obtain ⟨x, hround, hread⟩ :=
    (declarationsOfText_of_numberToken hsite rfl rfl).1 false _ hnumeral fun _ => by norm_num
  refine ⟨x, hround, ?_⟩
  rw [hread, MemberSite.goOn_closeBrace rfl]
  rfl

/-- A number token without a digit behind its exponent mark is refused. -/
theorem declarationsOfText_without_exponent :
    IsNumberText ['1', 'e', '_']
      ∧ declarationsOfText "enum E \x7b A = 1e_ \x7d"
        = .error ⟨"invalid number literal `1e_`", ⟨1, 18⟩⟩ := by
  constructor
  · unfold IsNumberText
    cbv
  · cbv

end Specimen.Source
