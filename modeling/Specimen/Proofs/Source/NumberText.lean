import Specimen.Proofs.Source.GapScan
import Specimen.Source.Body

/-!
# The texts of number tokens

A text that is scanned to one number token is a text of one of the two patterns of numbers
(`isNumberText_iff_matches`). It is scanned to that token wherever it stands, unless the next
character could be a part of a number (`IsNumberText.isPiece`). A minus sign is a token of its own
there, and with a decimal number behind it a part of the number (`IsDecimal.minus`).
-/

namespace Specimen.Source

open Pattern

/-- The text is one token, a number. -/
def IsNumberText (text : List Char) : Prop :=
  Tokens.ofText text = ⟨[⟨.number, [], text, 0⟩], []⟩

/-- The text is a decimal number without a sign. -/
structure IsDecimal (text : List Char) : Prop where
  isNumber : Matches decimalNumber text
  unsigned : text.head? ≠ some '-'

/-! ## Rules of numbers -/

theorem mem_wholeStarts_of_matches {rule : Piece × Pattern} (hrule : rule ∈ rules)
    (hnumeric : rule.1.isNumeric = true) {c : Char} {text : List Char}
    (h : Matches rule.2 (c :: text)) : c ∈ wholeStarts := by
  have hstarts := starts_of_matches h
  revert rule
  rw [forall_mem_rules]
  simp only [Piece.isNumeric, Bool.false_eq_true, false_implies, implies_true, true_and, and_true,
    forall_const]
  refine ⟨fun _ hstarts => ?_, fun _ hstarts => ?_, fun mark hmark _ hstarts => ?_⟩
  · have hc : c = '-' ∨ c.isDigit = true := by
      simpa [decimalNumber, Pattern.sequence, Pattern.optional, anyOf, starts, acceptsEmpty]
        using hstarts
    rcases hc with rfl | hc
    · decide
    · exact mem_wholeStarts_of_isDigit hc
  · obtain rfl : c = '0' := by
      simpa [hexNumber, Pattern.sequence, anyOf, starts, acceptsEmpty] using hstarts
    decide
  · cases mark with
    | minus =>
        obtain rfl : c = '-' := by simpa [Mark.text, literal, starts, acceptsEmpty] using hstarts
        decide
    | _ => simp at hmark

/-- A number or a minus sign is the longest text, if nothing that numbers are made of follows. -/
theorem isLongest_numeric {rule : Piece × Pattern} (hrule : rule ∈ rules)
    (hnumeric : rule.1.isNumeric = true) {text rest : List Char} (hne : text ≠ [])
    (h : Matches rule.2 text) (hrest : ∀ c ∈ rest.head?, isNumberPart c = false) :
    IsLongest (text ++ rest) rule.1 text.length := by
  obtain ⟨first, more, rfl⟩ := List.exists_cons_of_ne_nil hne
  have hfirst := mem_wholeStarts_of_matches hrule hnumeric h
  refine ⟨Nat.succ_pos _, ⟨rule.2, hrule, fits_append_iff.mpr h⟩, ?_, ?_⟩
  · intro other hother m hfits
    rcases Nat.eq_zero_or_pos m with rfl | hm
    · exact Nat.zero_le _
    · have hnumeric' := allowed_of_fits startOnly_wholeStarts hfirst hother hm hfits
      exact (numericRules_within hother hnumeric').le_of_fits hrest hfits
  · intro other hother hfits
    rcases overlap hrule hother hne h (fits_append_iff.mp hfits) with hpreferred | hpreferred
    · exact hpreferred
    · -- only a name has another piece preferred to it
      have hname : (rule.1 == .token .identifier) = false := by
        rw [beq_eq_false_iff_ne]
        intro hname
        rw [hname] at hnumeric
        cases hnumeric
      rw [Piece.isPreferredTo, hname, Bool.and_false, Bool.or_false, beq_iff_eq] at hpreferred
      rw [Piece.isPreferredTo, hpreferred, beq_self_eq_true, Bool.true_or]

theorem isPiece_minus {rest : List Char} (hrest : ∀ c ∈ rest.head?, isNumberPart c = false) :
    IsPiece (['-'] ++ rest) (some (.mark .minus)) ['-'].length := by
  have hrule : markRule .minus ∈ rules := by simp [rules, markRule, Mark.mem_all]
  exact .token
    (isLongest_numeric hrule rfl (List.cons_ne_nil _ _) (matches_literal_iff.mpr rfl) hrest)

/-! ## Texts of numbers -/

theorem IsPiece.matches_number {text rest : List Char}
    (h : IsPiece (text ++ rest) (some .number) text.length) :
    Matches decimalNumber text ∨ Matches hexNumber text := by
  generalize hlength : text.length = length at h
  cases h with
  | token h =>
      obtain ⟨pattern, hrule, hfits⟩ := (hlength ▸ h).fits
      have hpattern : ∀ rule ∈ rules, rule.1 = .token .number →
          rule.2 = decimalNumber ∨ rule.2 = hexNumber := by
        rw [forall_mem_rules]
        simp
      rcases hpattern _ hrule rfl with rfl | rfl
      · exact .inl (fits_append_iff.mp hfits)
      · exact .inr (fits_append_iff.mp hfits)

/-- Every number token of a document has such a text. -/
theorem Munched.matches_number {offset : Nat} {gap input : List Char} {document : Tokens}
    (h : Munched offset gap input document) :
    ∀ token ∈ document.tokens, token.kind = .number →
      Matches decimalNumber token.text ∨ Matches hexNumber token.text := by
  induction h with
  | done => simp
  | gap _ _ ih => exact ih
  | token hpiece _ ih =>
      intro token hmem hkind
      rcases List.mem_cons.mp hmem with rfl | hmem
      · obtain rfl := hkind
        exact hpiece.matches_number
      · exact ih token hmem hkind

theorem isPiece_of_matches {text rest : List Char}
    (h : Matches decimalNumber text ∨ Matches hexNumber text)
    (hrest : ∀ c ∈ rest.head?, isNumberPart c = false) :
    IsPiece (text ++ rest) (some .number) text.length := by
  have hdecimal : (Piece.token .number, decimalNumber) ∈ rules := by simp [rules]
  have hhex : (Piece.token .number, hexNumber) ∈ rules := by simp [rules]
  have hne (p : Pattern) (hempty : p.acceptsEmpty = false) (h : Matches p text) : text ≠ [] := by
    rintro rfl
    rw [(acceptsEmpty_iff p).mpr h] at hempty
    cases hempty
  rcases h with h | h
  · exact .token (isLongest_numeric hdecimal rfl (hne _ rfl h) h hrest)
  · exact .token (isLongest_numeric hhex rfl (hne _ rfl h) h hrest)

theorem isNumberText_iff_matches {text : List Char} :
    IsNumberText text ↔ Matches decimalNumber text ∨ Matches hexNumber text := by
  constructor
  · intro h
    have hmatch := (munched_scan 0 [] text).matches_number ⟨.number, [], text, 0⟩
    change _ ∈ (Tokens.ofText text).tokens → _ at hmatch
    rw [show Tokens.ofText text = _ from h] at hmatch
    exact hmatch List.mem_cons_self rfl
  · intro h
    have hpiece : IsPiece (text ++ []) (some .number) text.length :=
      isPiece_of_matches h (by simp)
    have hmunched : Munched 0 [] (text ++ []) ⟨[⟨.number, [], text, 0⟩], []⟩ := .token hpiece .done
    rw [List.append_nil] at hmunched
    exact hmunched.eq_scan.symm

theorem IsNumberText.of_mem {text : List Char} {token : Token}
    (hmem : token ∈ (Tokens.ofText text).tokens) (hkind : token.kind = .number) :
    IsNumberText token.text :=
  isNumberText_iff_matches.mpr ((munched_scan 0 [] text).matches_number token hmem hkind)

/-- A number is a token of its own, if nothing that numbers are made of follows. -/
theorem IsNumberText.isPiece {text rest : List Char} (h : IsNumberText text)
    (hrest : ∀ c ∈ rest.head?, isNumberPart c = false) :
    IsPiece (text ++ rest) (some .number) text.length :=
  isPiece_of_matches (isNumberText_iff_matches.mp h) hrest

theorem IsNumberText.ne_nil {text : List Char} (h : IsNumberText text) : text ≠ [] := by
  rintro rfl
  have hpiece : IsPiece ([] ++ []) (some .number) 0 := h.isPiece (by simp)
  exact absurd hpiece.pos (Nat.lt_irrefl 0)

/-! ## Decimal numbers -/

/-- A decimal number without its sign. -/
def unsignedNumber : Pattern :=
  .sequence
    [.one Char.isDigit, .many digitOrBlank, optional (.seq (anyOf ['.']) (repeated digitOrBlank)),
      optional (.sequence [anyOf ['e', 'E'], optional (anyOf ['+', '-']), repeated digitOrBlank])]

/-- A character of a decimal number without its sign. -/
def isDecimalPart (c : Char) : Bool :=
  c.isDigit || "_.eE+-".toList.contains c

theorem within_unsignedNumber : unsignedNumber.Within isDecimalPart := by
  have hdigit : (one Char.isDigit).Within isDecimalPart := fun c hc => by simp [isDecimalPart, hc]
  have hblank : digitOrBlank.Within isDecimalPart := by
    intro c hc
    rcases Bool.or_eq_true_iff.mp hc with hc | hc
    · simp [isDecimalPart, hc]
    · rw [beq_iff_eq.mp hc]
      decide
  have hpoint : (anyOf ['.']).Within isDecimalPart := within_anyOf (by decide)
  have hmark : (anyOf ['e', 'E']).Within isDecimalPart := within_anyOf (by decide)
  have hsigns : (anyOf ['+', '-']).Within isDecimalPart := within_anyOf (by decide)
  exact ⟨hdigit, hblank, ⟨⟨hpoint, hblank, hblank⟩, trivial⟩,
    ⟨⟨hmark, ⟨hsigns, trivial⟩, ⟨hblank, hblank⟩, trivial⟩, trivial⟩, trivial⟩

/-- A decimal number is a number without a sign, perhaps with a minus sign in front. -/
theorem matches_decimalNumber_iff {text : List Char} :
    Matches decimalNumber text ↔
      ∃ sign unsigned, (sign = [] ∨ sign = ['-']) ∧ text = sign ++ unsigned
        ∧ Matches unsignedNumber unsigned := by
  constructor
  · intro h
    obtain ⟨sign, unsigned, rfl, hsign, hunsigned⟩ := matches_seq_iff.mp h
    refine ⟨sign, unsigned, ?_, rfl, hunsigned⟩
    rcases matches_either_iff.mp hsign with hsign | hsign
    · obtain ⟨c, hc, rfl⟩ := matches_one_iff.mp hsign
      exact .inr (by simpa using hc)
    · exact .inl (matches_empty_iff.mp hsign)
  · rintro ⟨sign, unsigned, hsign, rfl, hunsigned⟩
    refine .seq ?_ hunsigned
    rcases hsign with rfl | rfl
    · exact matches_optional_nil _
    · exact .left (.one (by decide))

theorem exists_digit_of_matches {text : List Char} (h : Matches unsignedNumber text) :
    ∃ digit rest, text = digit :: rest ∧ digit.isDigit = true
      ∧ ∀ c ∈ rest, isDecimalPart c = true := by
  have hparts := within_unsignedNumber.all_of_matches h
  obtain ⟨first, rest, rfl, hfirst, -⟩ := matches_seq_iff.mp h
  obtain ⟨digit, hdigit, rfl⟩ := matches_one_iff.mp hfirst
  exact ⟨digit, rest, rfl, hdigit, fun c hc => hparts c (List.mem_cons_of_mem digit hc)⟩

theorem IsDecimal.matches_unsigned {text : List Char} (h : IsDecimal text) :
    Matches unsignedNumber text := by
  obtain ⟨sign, unsigned, rfl | rfl, rfl, hunsigned⟩ := matches_decimalNumber_iff.mp h.isNumber
  · exact hunsigned
  · exact absurd rfl h.unsigned

/-- With a minus sign in front it is a number as well. -/
theorem IsDecimal.minus {text : List Char} (h : IsDecimal text) : IsNumberText ('-' :: text) :=
  isNumberText_iff_matches.mpr
    (.inl (matches_decimalNumber_iff.mpr ⟨['-'], text, .inr rfl, rfl, h.matches_unsigned⟩))

/-! ## What ends a number -/

/-- The characters of numbers. -/
def numberParts : List Char :=
  "0123456789abcdefABCDEFxX_.+-".toList

theorem toNat_lt_of_isHexDigit {c : Char} (h : isHexDigit c = true) : c.toNat < 128 := by
  simp only [isHexDigit, Char.isDigit, Bool.or_eq_true, Bool.and_eq_true, decide_eq_true_eq,
    Char.le_def, UInt32.le_iff_toNat_le] at h
  change c.val.toNat < 128
  rcases h with (⟨-, h⟩ | ⟨-, h⟩) | ⟨-, h⟩ <;> exact Nat.lt_of_le_of_lt h (by decide)

theorem mem_numberParts {c : Char} (h : isNumberPart c = true) : c ∈ numberParts := by
  have hsmall : c.toNat < 128 := by
    rcases Bool.or_eq_true_iff.mp h with h | h
    · exact toNat_lt_of_isHexDigit h
    · have hall : ∀ d ∈ "xX_.+-".toList, d.toNat < 128 := by simp
      exact hall c (List.contains_iff_mem.mp h)
  exact of_toNat_lt (p := fun c => isNumberPart c = true → c ∈ numberParts) (by decide +kernel)
    hsmall h

/-- The piece is a token that does not end a member. -/
def Piece.isInner : Piece → Bool
  | .token (.mark .comma) => false
  | .token (.mark .closeBrace) => false
  | .token _ => true
  | _ => false

theorem startOnly_numberParts : StartOnly numberParts Piece.isInner := by
  unfold StartOnly
  decide

/-- Where a member ends, nothing that numbers are made of stands. -/
theorem not_isNumberPart_of_atMemberEnd {offset : Nat} {gap ending : List Char}
    (h : atMemberEnd (scan offset gap ending).tokens = true) :
    ∀ c ∈ ending.head?, isNumberPart c = false := by
  intro c hc
  cases ending with
  | nil => cases hc
  | cons first rest =>
      obtain rfl : first = c := Option.some.inj hc
      by_contra hpart
      have hmem := mem_numberParts (Bool.eq_true_of_not_eq_false hpart)
      have hinner : ∀ piece n, longestRule? (first :: rest) rules = some (piece, n + 1) →
          piece.isInner = true := by
        intro piece n hlongest
        obtain ⟨pattern, hrule, hfits⟩ := (isLongest_of_longestRule? (Nat.succ_pos n) hlongest).fits
        exact allowed_of_fits startOnly_numberParts hmem hrule (Nat.succ_pos n) hfits
      -- so the first piece is a token, and no separator
      obtain ⟨kind, length, hpiece, hkind⟩ : ∃ kind length,
          pieceAt first rest = (some kind, length)
            ∧ kind ≠ .mark .comma ∧ kind ≠ .mark .closeBrace := by
        rw [pieceAt]
        split
        · rename_i kind n hlongest
          refine ⟨kind, n, rfl, ?_⟩
          have := hinner _ n hlongest
          constructor <;> rintro rfl <;> cases this
        · rename_i n hlongest
          cases hinner _ n hlongest
        · rename_i n hlongest
          cases hinner _ n hlongest
        · exact ⟨.unrecognized, _, rfl, by simp⟩
      rw [scan, hpiece] at h
      simp [atMemberEnd, startsWith, hkind.1, hkind.2] at h

end Specimen.Source
