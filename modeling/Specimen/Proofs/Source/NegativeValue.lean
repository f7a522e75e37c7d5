import Specimen.Proofs.Source.MemberSite
import Specimen.Proofs.Source.NumberText

/-!
# Negative values

A minus sign in front of a decimal number is a part of the number; with a blank or a comment
between them it is a token of its own. The member has the same value either way, the one of the
number with the other sign. Main statement: `hasValue_of_minus`. A hexadecimal number has no sign:
without a gap in front of it the minus sign takes its first digit along, and the value is no
number (`declarationsOfText_minus_hex`).
-/

namespace Specimen.Source

open Pattern

/-- The value of the member is written as the text `written`, which ends in front of the tokens. -/
def MemberSite.WrittenAs (site : MemberSite) (text written : List Char)
    (rest : List Token) : Prop :=
  ∃ front gap ending, text = front ++ (written ++ ending)
    ∧ site.StandsAt (Tokens.ofText text) (scan (byteSize front) gap (written ++ ending)).tokens
    ∧ rest = (scan (byteSize (front ++ written)) [] ending).tokens
    ∧ atMemberEnd rest = true

/-- Wherever the text is written as the value of a member, the member has the value. -/
def HasValue (written : List Char) (value : EnumLiteral) : Prop :=
  ∀ (site : MemberSite) (text : String) (rest : List Token),
    site.WrittenAs text.toList written rest →
    declarationsOfText text
      = (site.goOn (Tokens.ofText text.toList).tail value rest).mapError (·.report text.toList)

/-! ## Values that are tokens -/

section Tokens

variable {site : MemberSite} {text : String} {minus literal : Token} {rest : List Token}

/-- A member whose value is one number. -/
theorem MemberSite.StandsAt.declarationsOfText_number
    (h : site.StandsAt (Tokens.ofText text.toList) (literal :: rest))
    (hkind : literal.kind = .number) (hend : atMemberEnd rest = true) :
    declarationsOfText text
      = (numberLiteral literal.text rest >>= fun value =>
          site.goOn (Tokens.ofText text.toList).tail (.number value) rest).mapError
            (·.report text.toList) := by
  rw [h.declarationsOfText_eq, initializer_number hkind hend]
  cases numberLiteral literal.text rest <;> rfl

/-- A member whose value is one number behind a minus sign. -/
theorem MemberSite.StandsAt.declarationsOfText_negative
    (h : site.StandsAt (Tokens.ofText text.toList) (minus :: literal :: rest))
    (hminus : minus.kind = .mark .minus) (hkind : literal.kind = .number)
    (hend : atMemberEnd rest = true) :
    declarationsOfText text
      = (numberLiteral literal.text rest >>= fun value =>
          site.goOn (Tokens.ofText text.toList).tail (.number (-value)) rest).mapError
            (·.report text.toList) := by
  rw [h.declarationsOfText_eq, initializer_negative hminus hkind hend]
  cases numberLiteral literal.text rest <;> rfl

end Tokens

/-! ## Values that are texts -/

section Texts

variable {number between : List Char} {value : Float}

/-- A number is scanned to one token in front of the end of its member. -/
theorem IsNumberText.scan_tokens (h : IsNumberText number) {ending : List Char} {stop : Nat}
    (hend : atMemberEnd (scan stop [] ending).tokens = true) (offset : Nat) (gap : List Char) :
    (scan offset gap (number ++ ending)).tokens
      = ⟨.number, gap, number, offset⟩ :: (scan (offset + byteSize number) [] ending).tokens :=
  (h.isPiece (not_isNumberPart_of_atMemberEnd hend)).scan_token

/-- A gap starts with nothing that numbers are made of. -/
theorem Gap.not_isNumberPart {after : List Char} (h : Gap between after) (hne : between ≠ [])
    (more : List Char) : ∀ c ∈ (between ++ more).head?, isNumberPart c = false := by
  cases h with
  | nil => exact absurd rfl hne
  | @blank c rest _ hblank _ =>
      intro d hd
      obtain rfl : c = d := Option.some.inj hd
      simp only [Pattern.isBlank, Bool.or_eq_true, beq_iff_eq] at hblank
      rcases hblank with (((rfl | rfl) | rfl) | rfl) | rfl <;> decide
  | lineComment =>
      rintro d hd
      cases hd
      decide
  | blockComment =>
      rintro d hd
      cases hd
      decide

/-- A number that is accepted by itself has a value. -/
theorem MemberSite.WrittenAs.exists_numberValue? {site : MemberSite} {text : String}
    {rest : List Token} {declarations : List Declaration}
    (hwritten : site.WrittenAs text.toList number rest) (hnumber : IsNumberText number)
    (hread : declarationsOfText text = .ok declarations) :
    ∃ value, numberValue? number = some value := by
  obtain ⟨front, gap, ending, -, hsite, rfl, hend⟩ := hwritten
  rw [hnumber.scan_tokens hend] at hsite
  cases hvalue : numberValue? number with
  | some value => exact ⟨value, rfl⟩
  | none =>
      rw [byteSize_append] at hend
      rw [hsite.declarationsOfText_number rfl hend, numberLiteral, hvalue] at hread
      cases hread

theorem hasValue_number (hnumber : IsNumberText number)
    (hvalue : numberValue? number = some value) : HasValue number (.number value) := by
  rintro site text rest ⟨front, gap, ending, -, hsite, rfl, hend⟩
  rw [hnumber.scan_tokens hend] at hsite
  rw [byteSize_append] at hend ⊢
  rw [hsite.declarationsOfText_number rfl hend, numberLiteral, hvalue]
  rfl

/-- With a gap behind it, the minus sign is a token of its own. -/
theorem hasValue_between (hnumber : IsNumberText number) (hvalue : numberValue? number = some value)
    (hne : between ≠ []) (hgap : Gap between number) :
    HasValue ('-' :: (between ++ number)) (.number (-value)) := by
  rintro site text rest ⟨front, gap, ending, -, hsite, rfl, hend⟩
  have hhead : (number ++ ending).head? = number.head? :=
    List.head?_append_of_ne_nil _ hnumber.ne_nil
  have hminus := isPiece_minus (hgap.not_isNumberPart hne (number ++ ending))
  have hscan : (scan (byteSize front) gap ('-' :: (between ++ number) ++ ending)).tokens
      = ⟨.mark .minus, gap, ['-'], byteSize front⟩
        :: ⟨.number, between, number, byteSize front + byteSize ['-'] + byteSize between⟩
        :: (scan (byteSize (front ++ '-' :: (between ++ number))) [] ending).tokens := by
    have hsplit :
        '-' :: (between ++ number) ++ ending = ['-'] ++ (between ++ (number ++ ending)) := by
      simp
    have hstop : byteSize (front ++ '-' :: (between ++ number))
        = byteSize front + byteSize ['-'] + byteSize between + byteSize number := by
      simp only [byteSize_append, byteSize]
      omega
    rw [hsplit, hminus.scan_token, (hgap.of_head?_eq hhead).scan_append, hnumber.scan_tokens hend,
      List.nil_append, hstop]
  rw [hscan] at hsite
  rw [hsite.declarationsOfText_negative rfl rfl hend, numberLiteral, hvalue]
  rfl

end Texts

/-! ## The sign of a number -/

/-- A text without its underscores. -/
def withoutUnderscores (text : List Char) : List Char :=
  text.filter (· != '_')

/-- A number that is not hexadecimal is read as a decimal one. -/
theorem numberValue?_of_not_hex {number : List Char}
    (h : ∀ c ∈ withoutUnderscores number, c ≠ 'x' ∧ c ≠ 'X') :
    numberValue? number
      = (Decimal.numeral? (withoutUnderscores number)).map Decimal.Numeral.toFloat := by
  rw [withoutUnderscores] at h
  rw [numberValue?]
  split
  · rename_i digits hsplit
    exact absurd rfl (h 'x' (by simp [hsplit])).1
  · rename_i digits hsplit
    exact absurd rfl (h 'X' (by simp [hsplit])).2
  · rfl

theorem numeral?_minus {text : List Char} (h : text.head? ≠ some '-') :
    (Decimal.numeral? ('-' :: text)).map Decimal.Numeral.toFloat
      = ((Decimal.numeral? text).map Decimal.Numeral.toFloat).map (- ·) := by
  have hsign : Decimal.splitMinus text = (false, text) := by
    unfold Decimal.splitMinus
    split
    · exact absurd rfl h
    · rfl
  have hminus : Decimal.splitMinus ('-' :: text) = (true, text) := rfl
  simp only [Decimal.numeral?, hsign, hminus]
  split
  · rfl
  · cases Decimal.exponentPart? _ <;> rfl

/-- A minus sign in front of a decimal number negates its value. -/
theorem IsDecimal.numberValue?_minus {number : List Char} (h : IsDecimal number) :
    numberValue? ('-' :: number) = (numberValue? number).map (- ·) := by
  obtain ⟨digit, rest, rfl, hdigit, hrest⟩ := exists_digit_of_matches h.matches_unsigned
  have hclean : withoutUnderscores (digit :: rest) = digit :: withoutUnderscores rest := by
    refine List.filter_cons_of_pos (bne_iff_ne.mpr ?_)
    rintro rfl
    cases hdigit
  have hminus : digit ≠ '-' := by
    rintro rfl
    cases hdigit
  -- no letter of a hexadecimal number is a part of a decimal one
  have hpart : ∀ c ∈ withoutUnderscores (digit :: rest), c ≠ 'x' ∧ c ≠ 'X' := by
    have hall : ∀ c ∈ digit :: rest, isDecimalPart c = true :=
      List.forall_mem_cons.mpr ⟨by simp [isDecimalPart, hdigit], hrest⟩
    intro c hc
    have hdecimal := hall c (List.mem_filter.mp hc).1
    constructor <;> rintro rfl <;> exact absurd hdecimal (by decide)
  have hsigned :
      withoutUnderscores ('-' :: digit :: rest) = '-' :: withoutUnderscores (digit :: rest) :=
    rfl
  rw [numberValue?_of_not_hex hpart, numberValue?_of_not_hex, hsigned, numeral?_minus]
  · rw [hclean]
    simpa using hminus
  · rw [hsigned]
    exact List.forall_mem_cons.mpr ⟨by decide, hpart⟩

/-- A number without a sign that is accepted as a value by itself is accepted behind a minus sign
as well, with blanks and comments between them and, if it is decimal, without. The value is the
one of the number with the other sign. -/
theorem hasValue_of_minus {number : List Char} (hnumber : IsNumberText number)
    (hunsigned : number.head? ≠ some '-') {site : MemberSite} {text : String} {rest : List Token}
    (hwritten : site.WrittenAs text.toList number rest) {declarations : List Declaration}
    (hread : declarationsOfText text = .ok declarations) :
    ∃ value, HasValue number (.number value)
      ∧ (∀ between, between ≠ [] → Gap between number →
          HasValue ('-' :: (between ++ number)) (.number (-value)))
      ∧ (Matches decimalNumber number → HasValue ('-' :: number) (.number (-value))) := by
  obtain ⟨value, hvalue⟩ := hwritten.exists_numberValue? hnumber hread
  refine ⟨value, hasValue_number hnumber hvalue, fun between hne hgap =>
    hasValue_between hnumber hvalue hne hgap, fun hdecimal => ?_⟩
  have hminus : IsDecimal number := ⟨hdecimal, hunsigned⟩
  exact hasValue_number hminus.minus (by rw [hminus.numberValue?_minus, hvalue]; rfl)

set_option maxRecDepth 1024 in
/-- The number twenty, with an underscore. -/
theorem hasValue_of_minus_twenty :
    let declarations (value : Float) : List Declaration :=
      [⟨"E", .enumeration [⟨"A", some (.number value)⟩]⟩]
    ∃ value, declarationsOfText "enum E \x7b A = 2_0 \x7d" = .ok (declarations value)
      ∧ declarationsOfText "enum E \x7b A = -2_0 \x7d" = .ok (declarations (-value))
      ∧ declarationsOfText "enum E \x7b A = - /**/2_0 \x7d" = .ok (declarations (-value)) := by
  intro declarations
  let site : MemberSite := ⟨[], "E", [], "A"⟩
  let keyword : Token := ⟨.keyword .enum, [], ['e', 'n', 'u', 'm'], 0⟩
  let name : Token := ⟨.identifier, [' '], ['E'], 5⟩
  let brace : Token := ⟨.mark .openBrace, [' '], ['\x7b'], 7⟩
  let member : Token := ⟨.identifier, [' '], ['A'], 9⟩
  let equals : Token := ⟨.mark .equals, [' '], ['='], 11⟩
  let closing (start : Nat) : Token := ⟨.mark .closeBrace, [' '], ['\x7d'], start⟩
  have hstands (value : List Token) :
      site.StandsAt ⟨keyword :: name :: brace :: member :: equals :: value, []⟩ value :=
    MemberSite.standsAt_first keyword name brace member equals rfl rfl rfl rfl rfl value []
  -- a text in the place of the value
  have hwritten {text : String} {written : List Char} {stop : Nat}
      (htext : text.toList = "enum E \x7b A = ".toList ++ (written ++ " \x7d".toList))
      (hscan : Tokens.ofText text.toList = ⟨keyword :: name :: brace :: member :: equals
        :: (scan 13 [' '] (written ++ " \x7d".toList)).tokens, []⟩)
      (hrest : (scan (byteSize ("enum E \x7b A = ".toList ++ written)) [] " \x7d".toList).tokens
        = [closing stop]) :
      site.WrittenAs text.toList written [closing stop]
        ∧ ∀ value, HasValue written (.number value) →
          declarationsOfText text = .ok (declarations value) := by
    have hwritten : site.WrittenAs text.toList written [closing stop] :=
      ⟨"enum E \x7b A = ".toList, [' '], " \x7d".toList, htext, hscan ▸ hstands _, hrest.symm, rfl⟩
    refine ⟨hwritten, fun value hvalue => ?_⟩
    rw [hvalue site text _ hwritten, MemberSite.goOn_closeBrace rfl]
    rfl
  have hself : site.WrittenAs "enum E \x7b A = 2_0 \x7d".toList ['2', '_', '0'] [closing 17]
      ∧ ∀ value, HasValue ['2', '_', '0'] (.number value) →
        declarationsOfText "enum E \x7b A = 2_0 \x7d" = .ok (declarations value) := by
    refine hwritten rfl ?_ ?_
    · dsimp only [keyword, name, brace, member, equals]
      cbv
    · dsimp only [closing]
      cbv
  have hminus : site.WrittenAs "enum E \x7b A = -2_0 \x7d".toList
        ['-', '2', '_', '0'] [closing 18]
      ∧ ∀ value, HasValue ['-', '2', '_', '0'] (.number value) →
        declarationsOfText "enum E \x7b A = -2_0 \x7d" = .ok (declarations value) := by
    refine hwritten rfl ?_ ?_
    · dsimp only [keyword, name, brace, member, equals]
      cbv
    · dsimp only [closing]
      cbv
  have hbetween : site.WrittenAs "enum E \x7b A = - /**/2_0 \x7d".toList
        ['-', ' ', '/', '*', '*', '/', '2', '_', '0'] [closing 23]
      ∧ ∀ value, HasValue ['-', ' ', '/', '*', '*', '/', '2', '_', '0'] (.number value) →
        declarationsOfText "enum E \x7b A = - /**/2_0 \x7d" = .ok (declarations value) := by
    refine hwritten rfl ?_ ?_
    · dsimp only [keyword, name, brace, member, equals]
      cbv
    · dsimp only [closing]
      cbv
  have hnumber : IsNumberText ['2', '_', '0'] := by
    unfold IsNumberText
    cbv
  have hvalue : HasValue ['2', '_', '0']
      (.number (Decimal.Numeral.toFloat ⟨false, ['2', '0'], none, none⟩)) :=
    hasValue_number hnumber rfl
  obtain ⟨value, hplain, hspaced, hsigned⟩ :=
    hasValue_of_minus hnumber (by decide) hself.1 (hself.2 _ hvalue)
  have hgap : Gap [' ', '/', '*', '*', '/'] ['2', '_', '0'] :=
    .blank rfl (.blockComment endsFirst_nil .nil)
  have hlongest : decimalNumber.longest? ['2', '_', '0'] = some 3 := by decide
  have hdecimal : Matches decimalNumber ['2', '_', '0'] := (longest?_eq_some_iff.mp hlongest).1.2
  exact ⟨value, hself.2 value hplain, hminus.2 _ (hsigned hdecimal),
    hbetween.2 _ (hspaced _ (by decide) hgap)⟩

/-- A hexadecimal number is a value by itself, but with a minus sign right in front of it no
number. -/
theorem declarationsOfText_minus_hex :
    HasValue ['0', 'x', '1', 'F'] (.number (Binary64.ofInt 31))
      ∧ declarationsOfText "enum E \x7b A = -0x1F \x7d"
        = .ok [⟨"E", .enumeration [⟨"A", some (.string "-0x1F")⟩]⟩] := by
  have hnumber : IsNumberText ['0', 'x', '1', 'F'] := by
    unfold IsNumberText
    cbv
  refine ⟨hasValue_number hnumber rfl, ?_⟩
  cbv

end Specimen.Source
