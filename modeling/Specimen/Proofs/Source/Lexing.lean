import Specimen.Proofs.Source.Literal
import Specimen.Proofs.Source.Rules

/-!
# Tokens at the front of an input

What `pieceAt` finds where a word, a mark, a quoted text, a whole number or blanks stand, given that
the next character does not go on with them.
-/

namespace Specimen.Source

open Pattern

/-- What holds of the first characters holds of every character that is one of them. -/
theorem of_toNat_lt {p : Char → Prop} {count : Nat} (hall : ∀ n < count, p (Char.ofNat n))
    {c : Char} (h : c.toNat < count) : p c := by
  have hc := hall c.toNat h
  rwa [Char.ofNat_toNat] at hc

/-! ## Words -/

/-- The characters that a name starts with. -/
def nameStarts : List Char :=
  "ABCDEFGHIJKLMNOPQRSTUVWXYZabcdefghijklmnopqrstuvwxyz_$".toList

theorem mem_nameStarts {c : Char} (h : isNameStart c = true) : c ∈ nameStarts := by
  have hsmall : c.toNat < 128 := by
    simp only [isNameStart, Bool.or_eq_true, Bool.and_eq_true, decide_eq_true_eq, beq_iff_eq,
      Char.le_def, UInt32.le_iff_toNat_le] at h
    change c.val.toNat < 128
    rcases h with ((⟨-, h⟩ | ⟨-, h⟩) | rfl) | rfl
    · exact Nat.lt_of_le_of_lt h (by decide)
    · exact Nat.lt_of_le_of_lt h (by decide)
    · decide
    · decide
  exact of_toNat_lt (p := fun c => isNameStart c = true → c ∈ nameStarts) (by decide +kernel)
    hsmall h

/-- The piece is a word. -/
def Piece.isWord : Piece → Bool
  | .token kind => kind.isWord
  | _ => false

theorem startOnly_nameStarts : StartOnly nameStarts Piece.isWord := by
  unfold StartOnly
  decide

/-- The text is a name: a start character and further ones. -/
def isIdentifier : List Char → Bool
  | [] => false
  | c :: rest => isNameStart c && rest.all isNamePart

theorem matches_name_iff {text : List Char} : Matches .name text ↔ isIdentifier text = true := by
  constructor
  · intro h
    obtain ⟨t, u, rfl, ht, hu⟩ := matches_seq_iff.mp h
    obtain ⟨c, hc, rfl⟩ := matches_one_iff.mp ht
    have hwithin : (Pattern.many (.one isNamePart)).Within isNamePart := fun _ => id
    have hrest := hwithin.all_of_matches hu
    simp only [List.singleton_append, isIdentifier, hc, Bool.true_and, List.all_eq_true]
    exact hrest
  · intro h
    cases text with
    | nil => cases h
    | cons c rest =>
        simp only [isIdentifier, Bool.and_eq_true, List.all_eq_true] at h
        rw [← List.singleton_append]
        exact .seq (.one h.1) (matches_many_one h.2)

theorem isNamePart_of_mem {text : List Char} (h : isIdentifier text = true) :
    ∀ c ∈ text, isNamePart c = true := by
  cases text with
  | nil => simp
  | cons first rest =>
      simp only [isIdentifier, Bool.and_eq_true, List.all_eq_true] at h
      intro c hc
      rcases List.mem_cons.mp hc with rfl | hc
      · simp [isNamePart, h.1]
      · exact h.2 c hc

theorem isIdentifier_keyword (word : Keyword) : isIdentifier word.text.toList = true := by
  cases word <;> decide

/-- The kind of token that a name is. -/
def wordKind (text : List Char) : TokenKind :=
  match Keyword.all.find? fun word => word.text.toList == text with
  | some word => .keyword word
  | none => .identifier

theorem isWord_wordKind (text : List Char) : (wordKind text).isWord = true := by
  unfold wordKind
  split <;> rfl

theorem text_of_wordKind {text : List Char} {word : Keyword} (h : wordKind text = .keyword word) :
    word.text.toList = text := by
  unfold wordKind at h
  split at h
  · rename_i found hfind
    cases h
    simpa using List.find?_some hfind
  · cases h

theorem wordRules_within {rule : Piece × Pattern} (hrule : rule ∈ rules)
    (hword : rule.1.isWord = true) : rule.2.Within isNamePart := by
  revert rule
  simp only [forall_mem_rules, Piece.isWord, TokenKind.isWord]
  refine ⟨fun word _ => within_literal (isNamePart_of_mem (isIdentifier_keyword word)), ?_⟩
  simp only [Bool.false_eq_true, false_implies, true_and, implies_true, and_true, forall_const]
  refine ⟨?_, fun _ => id⟩
  intro c hc
  simp [isNamePart, hc]

/-- The rule of a keyword. -/
def keywordRule (word : Keyword) : Piece × Pattern :=
  (.token (.keyword word), literal word.text.toList)

theorem rules_eq_of_keyword {before after : List Keyword} {word : Keyword}
    (h : Keyword.all = before ++ word :: after) :
    ∃ later, rules = before.map keywordRule ++ keywordRule word :: later := by
  obtain ⟨later, hrules⟩ : ∃ later, rules = Keyword.all.map keywordRule ++ later :=
    ⟨rules.drop Keyword.all.length, rfl⟩
  refine ⟨after.map keywordRule ++ later, ?_⟩
  rw [hrules, h, List.map_append, List.map_cons, List.append_assoc, List.cons_append]

/-- Before the rule of names, only the rules of keywords are about words. -/
theorem rules_eq_of_name : ∃ before after, rules = before ++ (.token .identifier, name) :: after
    ∧ ∀ rule ∈ before, rule.1.isWord = true →
      ∃ word : Keyword, rule.2 = literal word.text.toList := by
  refine ⟨Keyword.all.map keywordRule ++ [(.token .number, decimalNumber),
    (.token .number, hexNumber), (.token .string, stringLiteral),
    (.token .template, templateLiteral)], _, rfl, ?_⟩
  intro rule hrule hisWord
  rcases List.mem_append.mp hrule with hrule | hrule
  · obtain ⟨word, -, rfl⟩ := List.mem_map.mp hrule
    exact ⟨word, rfl⟩
  · simp only [List.mem_cons, List.not_mem_nil, or_false] at hrule
    rcases hrule with rfl | rfl | rfl | rfl <;> cases hisWord

/-- A name is a token of its own, if no further part of a name follows. -/
theorem pieceAt_word {first : Char} {more rest : List Char}
    (h : isIdentifier (first :: more) = true) (hrest : ∀ c ∈ rest.head?, isNamePart c = false) :
    pieceAt first (more ++ rest) = (some (wordKind (first :: more)), more.length) := by
  have hfirst : first ∈ nameStarts := by
    simp only [isIdentifier, Bool.and_eq_true] at h
    exact mem_nameStarts h.1
  have htake : (first :: (more ++ rest)).take (more.length + 1) = first :: more := by simp
  have hlength : more.length + 1 ≤ (first :: (more ++ rest)).length := by simp
  have hword : ∀ rule ∈ rules, ∀ m, 0 < m → Fits rule.2 (first :: (more ++ rest)) m →
      rule.1.isWord = true := fun rule hrule m hm =>
    allowed_of_fits startOnly_nameStarts hfirst hrule hm
  have hall : ∀ rule ∈ rules, ∀ m, 0 < m → Fits rule.2 (first :: (more ++ rest)) m →
      m ≤ more.length + 1 := by
    intro rule hrule m hm hfits
    have hwithin := wordRules_within hrule (hword rule hrule m hm hfits)
    have hfits : Fits rule.2 ((first :: more) ++ rest) m := hfits
    exact hwithin.le_of_fits hrest hfits
  have hfits : ∀ {text : List Char}, Fits (literal text) (first :: (more ++ rest)) (more.length + 1)
      → text = first :: more := by
    intro text hfits
    rw [← matches_literal_iff.mp hfits.2, htake]
  apply pieceAt_of_longestRule?
  unfold wordKind
  split
  · -- the rule of the keyword comes before the rule of names
    rename_i word hfind
    obtain ⟨htext, before, after, hsplit, hbefore⟩ := List.find?_eq_some_iff_append.mp hfind
    obtain ⟨later, hrules⟩ := rules_eq_of_keyword hsplit
    refine longestRule?_rules hrules (Nat.succ_pos _) ⟨hlength, ?_⟩ hall ?_
    · rw [htake, matches_literal_iff, beq_iff_eq.mp htext]
    · intro rule hrule hother
      obtain ⟨other, hmem, rfl⟩ := List.mem_map.mp hrule
      have hne := hbefore other hmem
      rw [hfits hother] at hne
      simp at hne
  · -- keywords of the same length have other texts
    rename_i hfind
    have hne := List.find?_eq_none.mp hfind
    obtain ⟨before, after, hrules, hbefore⟩ := rules_eq_of_name
    refine longestRule?_rules hrules (Nat.succ_pos _) ⟨hlength, ?_⟩ hall ?_
    · rw [htake, matches_name_iff]
      exact h
    · intro rule hrule hother
      have hmem : rule ∈ rules := by
        rw [hrules]
        exact List.mem_append_left _ hrule
      obtain ⟨word, hpattern⟩ := hbefore rule hrule (hword rule hmem _ (Nat.succ_pos _) hother)
      rw [hpattern] at hother
      have hbad := hne word (Keyword.mem_all word)
      rw [hfits hother] at hbad
      simp at hbad

/-! ## Marks -/

/-- The rule of a mark. -/
def markRule (mark : Mark) : Piece × Pattern :=
  (.token (.mark mark), literal mark.text.toList)

/-- The piece is a mark. -/
def Piece.isMark : Piece → Bool
  | .token (.mark _) => true
  | _ => false

theorem rules_eq_of_mark {before after : List Mark} {mark : Mark}
    (h : Mark.all = before ++ mark :: after) :
    ∃ earlier later, rules = (earlier ++ before.map markRule) ++ markRule mark :: later
      ∧ ∀ rule ∈ earlier, ∀ other, rule.1 ≠ .token (.mark other) := by
  obtain ⟨earlier, later, hrules, hearlier⟩ : ∃ earlier later,
      rules = earlier ++ (Mark.all.map markRule ++ later)
        ∧ (earlier.all fun rule => !rule.1.isMark) = true :=
    ⟨rules.take 16, rules.drop 39, rfl, rfl⟩
  refine ⟨earlier, after.map markRule ++ later, ?_, ?_⟩
  · rw [hrules, h, List.map_append, List.map_cons]
    simp only [List.append_assoc, List.cons_append]
  · intro rule hrule other hpiece
    have hone := List.all_eq_true.mp hearlier rule hrule
    simp [hpiece, Piece.isMark] at hone

theorem Mark.eq_of_text_eq {a b : Mark} (h : a.text.toList = b.text.toList) : a = b := by
  have hall : ∀ a ∈ Mark.all, ∀ b ∈ Mark.all, a.text.toList = b.text.toList → a = b := by decide
  exact hall a (Mark.mem_all a) b (Mark.mem_all b) h

/-- The characters that only marks start with. -/
def markStarts : List Char :=
  "\x7b\x7d()[]<>;,:?=|&.+*!@".toList

theorem startOnly_markStarts : StartOnly markStarts Piece.isMark := by
  unfold StartOnly
  decide

theorem eq_markRule {rule : Piece × Pattern} (hrule : rule ∈ rules)
    (hmark : rule.1.isMark = true) : ∃ mark, rule = markRule mark := by
  revert rule
  simp only [forall_mem_rules, Piece.isMark, Bool.false_eq_true, false_implies, implies_true,
    true_and, and_true, forall_const]
  intro mark
  exact ⟨mark, rfl⟩

/-- The second character makes a longer mark of the first. -/
def lengthens (first second : Char) : Bool :=
  (first == '=' && second == '>') || (first == '.' && second == '.')

/-- A mark at the front has one character, if the next one does not make a longer mark of it. -/
theorem Mark.length_eq_one_of_take {mark : Mark} {first : Char} {rest : List Char} {m : Nat}
    (h : (first :: rest).take m = mark.text.toList)
    (hrest : ∀ c ∈ rest.head?, lengthens first c = false) : mark.text.toList.length = 1 := by
  have hprefix : mark.text.toList <+: first :: rest := h ▸ List.take_prefix m _
  cases mark with
  | arrow =>
      obtain ⟨more, hmore⟩ := hprefix
      cases hmore
      exact absurd (hrest '>' rfl) (by decide)
  | ellipsis =>
      obtain ⟨more, hmore⟩ := hprefix
      cases hmore
      exact absurd (hrest '.' rfl) (by decide)
  | _ => rfl

/-- A mark of one character, if the next one does not make a longer mark of it. -/
theorem pieceAt_mark {mark : Mark} {first : Char} {rest : List Char}
    (htext : mark.text.toList = [first]) (hfirst : first ∈ markStarts)
    (hrest : ∀ c ∈ rest.head?, lengthens first c = false) :
    pieceAt first rest = (some (.mark mark), 0) := by
  have hmark : ∀ rule ∈ rules, ∀ m, 0 < m → Fits rule.2 (first :: rest) m →
      ∃ other, rule.1 = .token (.mark other) ∧ (first :: rest).take m = other.text.toList := by
    intro rule hrule m hm hfits
    obtain ⟨other, rfl⟩ :=
      eq_markRule hrule (allowed_of_fits startOnly_markStarts hfirst hrule hm hfits)
    exact ⟨other, rfl, matches_literal_iff.mp hfits.2⟩
  have hall : ∀ rule ∈ rules, ∀ m, 0 < m → Fits rule.2 (first :: rest) m → m ≤ 0 + 1 := by
    intro rule hrule m hm hfits
    obtain ⟨other, -, hother⟩ := hmark rule hrule m hm hfits
    have hlength : m = other.text.toList.length := by
      rw [← hother, List.length_take, Nat.min_eq_left hfits.1]
    exact Nat.le_of_eq (hlength.trans (Mark.length_eq_one_of_take hother hrest))
  obtain ⟨before, after, hsplit, hbefore⟩ := List.eq_append_cons_of_mem (Mark.mem_all mark)
  obtain ⟨earlier, later, hrules, hearlier⟩ := rules_eq_of_mark hsplit
  apply pieceAt_of_longestRule?
  refine longestRule?_rules hrules (Nat.succ_pos 0) ⟨by simp, ?_⟩ hall ?_
  · rw [matches_literal_iff, htext]
    rfl
  · intro rule hrule hfits
    have hmem : rule ∈ rules := by
      rw [hrules]
      exact List.mem_append_left _ hrule
    obtain ⟨other, hpiece, hother⟩ := hmark rule hmem (0 + 1) (Nat.succ_pos 0) hfits
    rcases List.mem_append.mp hrule with hrule | hrule
    · exact hearlier rule hrule other hpiece
    · obtain ⟨earlierMark, hmemMark, rfl⟩ := List.mem_map.mp hrule
      cases hpiece
      have hsame : other.text.toList = mark.text.toList := by
        rw [← hother, htext]
        rfl
      exact hbefore (Mark.eq_of_text_eq hsame ▸ hmemMark)

/-! ## Whole numbers -/

/-- A character of a number. -/
def isNumberPart (c : Char) : Bool :=
  isHexDigit c || "xX_.+-".toList.contains c

/-- The characters that a whole number starts with. -/
def wholeStarts : List Char :=
  "-0123456789".toList

/-- The piece may start with a digit or with a minus sign. -/
def Piece.isNumeric : Piece → Bool
  | .token .number => true
  | .token (.mark .minus) => true
  | _ => false

theorem startOnly_wholeStarts : StartOnly wholeStarts Piece.isNumeric := by
  unfold StartOnly
  decide

theorem isNumberPart_of_isDigit {c : Char} (h : c.isDigit = true) : isNumberPart c = true := by
  simp [isNumberPart, isHexDigit, h]

theorem within_decimalNumber : decimalNumber.Within isNumberPart := by
  have hdigit : (one Char.isDigit).Within isNumberPart := fun c => isNumberPart_of_isDigit
  have hblank : digitOrBlank.Within isNumberPart := by
    intro c hc
    rcases Bool.or_eq_true_iff.mp hc with hc | hc
    · exact isNumberPart_of_isDigit hc
    · rw [beq_iff_eq.mp hc]
      decide
  have hsign : (anyOf ['-']).Within isNumberPart := within_anyOf (by decide)
  have hpoint : (anyOf ['.']).Within isNumberPart := within_anyOf (by decide)
  have hmark : (anyOf ['e', 'E']).Within isNumberPart := within_anyOf (by decide)
  have hsigns : (anyOf ['+', '-']).Within isNumberPart := within_anyOf (by decide)
  refine ⟨⟨hsign, trivial⟩, hdigit, hblank, ⟨⟨hpoint, hblank, hblank⟩, trivial⟩, ⟨?_, trivial⟩,
    trivial⟩
  exact ⟨hmark, ⟨hsigns, trivial⟩, ⟨hblank, hblank⟩, trivial⟩

theorem within_hexNumber : hexNumber.Within isNumberPart := by
  have hzero : (anyOf ['0']).Within isNumberPart := within_anyOf (by decide)
  have hmark : (anyOf ['x', 'X']).Within isNumberPart := within_anyOf (by decide)
  have hdigit : (one fun c => isHexDigit c || c == '_').Within isNumberPart := by
    intro c hc
    rcases Bool.or_eq_true_iff.mp hc with hc | hc
    · simp [isNumberPart, hc]
    · rw [beq_iff_eq.mp hc]
      decide
  exact ⟨hzero, hmark, ⟨hdigit, hdigit⟩, trivial⟩

theorem numericRules_within {rule : Piece × Pattern} (hrule : rule ∈ rules)
    (hnumeric : rule.1.isNumeric = true) : rule.2.Within isNumberPart := by
  revert rule
  rw [forall_mem_rules]
  simp only [Piece.isNumeric, Bool.false_eq_true, false_implies, implies_true, true_and, and_true,
    forall_const]
  refine ⟨within_decimalNumber, within_hexNumber, ?_⟩
  intro mark hmark
  cases mark with
  | minus => exact within_literal (List.all_eq_true.mp (by decide))
  | _ => simp at hmark

theorem mem_wholeStarts_of_isDigit {c : Char} (h : c.isDigit = true) : c ∈ wholeStarts := by
  have hsmall : c.toNat < 128 := by
    simp only [Char.isDigit, Bool.and_eq_true, decide_eq_true_eq, UInt32.le_iff_toNat_le] at h
    exact Nat.lt_of_le_of_lt h.2 (by decide)
  exact of_toNat_lt (p := fun c => c.isDigit = true → c ∈ wholeStarts) (by decide) hsmall h

theorem mem_wholeStarts {negative : Bool} {n : Nat} {first : Char} {more : List Char}
    (h : Decimal.wholeChars negative n = first :: more) : first ∈ wholeStarts := by
  have hmem : first ∈ Decimal.wholeChars negative n := h ▸ List.mem_cons_self
  rcases mem_wholeChars hmem with rfl | hdigit
  · decide
  · exact mem_wholeStarts_of_isDigit hdigit

theorem matches_decimalNumber_natChars (n : Nat) {sign : List Char}
    (hsign : Matches (optional (anyOf ['-'])) sign) :
    Matches decimalNumber (sign ++ Decimal.natChars n) := by
  obtain ⟨digit, digits, hdigits⟩ := List.exists_cons_of_ne_nil (Decimal.natChars_ne_nil n)
  have hall : ∀ c ∈ digit :: digits, c.isDigit = true :=
    fun c hc => Decimal.isDigit_of_mem_natChars (hdigits ▸ hc)
  have hmore : Matches (.many digitOrBlank) digits := by
    apply matches_many_one
    intro c hc
    simp [hall c (List.mem_cons_of_mem _ hc)]
  have hnumber := Matches.seq hsign (.seq (.one (hall digit List.mem_cons_self)) (.seq hmore
    (.seq (matches_optional_nil (.seq (anyOf ['.']) (repeated digitOrBlank)))
      (.seq (matches_optional_nil (sequence [anyOf ['e', 'E'], optional (anyOf ['+', '-']),
        repeated digitOrBlank])) .empty))))
  simpa [decimalNumber, Pattern.sequence, hdigits] using hnumber

theorem matches_decimalNumber_wholeChars (negative : Bool) (n : Nat) :
    Matches decimalNumber (Decimal.wholeChars negative n) := by
  cases negative with
  | true => exact matches_decimalNumber_natChars n (.left (.one (by decide)))
  | false => exact matches_decimalNumber_natChars n (matches_optional_nil _)

/-- A whole number, if nothing that numbers are made of follows. -/
theorem pieceAt_whole {negative : Bool} {n : Nat} {first : Char} {more rest : List Char}
    (h : Decimal.wholeChars negative n = first :: more)
    (hrest : ∀ c ∈ rest.head?, isNumberPart c = false) :
    pieceAt first (more ++ rest) = (some .number, more.length) := by
  have htake : (first :: (more ++ rest)).take (more.length + 1) = first :: more := by simp
  obtain ⟨before, later, hrules, hbefore⟩ : ∃ before later,
      rules = before ++ (.token .number, decimalNumber) :: later
        ∧ (before.all fun rule => !rule.1.isNumeric) = true :=
    ⟨rules.take 11, rules.drop 12, rfl, rfl⟩
  apply pieceAt_of_longestRule?
  refine longestRule?_of_startOnly startOnly_wholeStarts (mem_wholeStarts h) hrules hbefore
    ⟨by simp, ?_⟩ ?_
  · rw [htake, ← h]
    exact matches_decimalNumber_wholeChars negative n
  · intro rule hrule hnumeric m _ hfits
    have hfits : Fits rule.2 ((first :: more) ++ rest) m := hfits
    exact (numericRules_within hrule hnumeric).le_of_fits hrest hfits

/-! ## Quoted texts -/

/-- What stands between double quotes. -/
def quotedBody : Pattern :=
  .many (.either (noneOf ['"', '\\', '\n']) protectedChar)

theorem matches_escape (text : List Char) : Matches quotedBody (escape text) := by
  induction text with
  | nil => exact .done
  | cons c text ih =>
      refine .more ?_ ih
      rcases escapeChar_cases c with ⟨hc, hbackslash, hquote, hbreak⟩ | ⟨d, hc, hbreak⟩
      · rw [hc]
        exact .left (.one (by simp [hbackslash, hquote, hbreak]))
      · rw [hc]
        exact .right (.seq (.one (by decide)) (.one (by simp [hbreak])))

theorem matches_quotedBody_cons {c : Char} {s : List Char} (h : Matches quotedBody (c :: s)) :
    (c ≠ '"' ∧ c ≠ '\\' ∧ Matches quotedBody s)
      ∨ (c = '\\' ∧ ∃ d t, s = d :: t ∧ Matches quotedBody t) := by
  obtain ⟨t, u, rfl, hfirst, hrest⟩ := matches_many_cons h
  rcases matches_either_iff.mp hfirst with hplain | hprotected
  · obtain ⟨d, hd, heq⟩ := matches_one_iff.mp hplain
    cases heq
    have hd : c ≠ '"' ∧ c ≠ '\\' ∧ c ≠ '\n' := by simpa using hd
    exact .inl ⟨hd.1, hd.2.1, hrest⟩
  · obtain ⟨x, y, heq, hx, hy⟩ := matches_seq_iff.mp hprotected
    obtain ⟨b, hb, rfl⟩ := matches_one_iff.mp hx
    obtain ⟨d, -, rfl⟩ := matches_one_iff.mp hy
    cases heq
    exact .inr ⟨by simpa using hb, d, u, rfl, hrest⟩

/-- The characters before the closing quote can be read in one way only. -/
theorem eq_escape_of_matches {text u v rest : List Char} (hu : Matches quotedBody u)
    (h : escape text ++ '"' :: rest = u ++ '"' :: v) : u = escape text := by
  induction text generalizing u with
  | nil =>
      cases u with
      | nil => rfl
      | cons c u =>
          obtain rfl : '"' = c := (List.cons.inj h).1
          rcases matches_quotedBody_cons hu with ⟨hquote, -⟩ | ⟨hbackslash, -⟩
          · exact absurd rfl hquote
          · exact absurd hbackslash (by decide)
  | cons a text ih =>
      simp only [escape, List.flatMap_cons] at h ⊢
      rw [← escape] at h ⊢
      rcases escapeChar_cases a with ⟨ha, hbackslash, hquote, -⟩ | ⟨d, ha, -⟩
      · rw [ha] at h ⊢
        cases u with
        | nil => exact absurd (List.cons.inj h).1 hquote
        | cons c u =>
            obtain ⟨rfl, htail⟩ := List.cons.inj h
            rcases matches_quotedBody_cons hu with ⟨-, -, hrest⟩ | ⟨hc, -⟩
            · rw [ih hrest htail, List.singleton_append]
            · exact absurd hc hbackslash
      · rw [ha] at h ⊢
        cases u with
        | nil => exact absurd (List.cons.inj h).1 (by decide)
        | cons c u =>
            obtain ⟨rfl, htail⟩ := List.cons.inj h
            rcases matches_quotedBody_cons hu with ⟨-, hc, -⟩ | ⟨-, b, t, rfl, hrest⟩
            · exact absurd rfl hc
            · have htail : d :: (escape text ++ '"' :: rest) = b :: (t ++ '"' :: v) := htail
              obtain ⟨rfl, hmore⟩ := List.cons.inj htail
              rw [ih hrest hmore]
              rfl

/-- The piece is a quoted text. -/
def Piece.isString : Piece → Bool
  | .token .string => true
  | _ => false

theorem startOnly_quote : StartOnly ['"'] Piece.isString := by
  unfold StartOnly
  decide

theorem eq_stringRule {rule : Piece × Pattern} (hrule : rule ∈ rules)
    (hstring : rule.1.isString = true) : rule.2 = stringLiteral := by
  revert rule
  simp only [forall_mem_rules, Piece.isString, Bool.false_eq_true, false_implies, implies_true,
    true_and]

theorem matches_stringLiteral_quote (text : List Char) : Matches stringLiteral (quote text) := by
  have hmark : Matches (anyOf ['"']) ['"'] := .one (by decide)
  have hquoted := Matches.seq hmark (.seq (matches_escape text) (.seq hmark .empty))
  have htext : ['"'] ++ (escape text ++ (['"'] ++ [])) = quote text := by simp [quote]
  rw [← htext]
  exact .left hquoted

theorem eq_quote_of_matches {text rest s t : List Char} (hmatch : Matches stringLiteral s)
    (h : quote text ++ rest = s ++ t) : s = quote text := by
  -- what starts with a double quote is not between single ones
  have hsplit : ∃ quoteMark body, (quoteMark = '"' → Matches quotedBody body)
      ∧ s = quoteMark :: (body ++ [quoteMark]) := by
    rcases matches_either_iff.mp hmatch with hmatch | hmatch
    all_goals
      obtain ⟨open_, more, rfl, hopen, hmore⟩ := matches_seq_iff.mp hmatch
      obtain ⟨body, close, rfl, hbody, hclose⟩ := matches_seq_iff.mp hmore
      obtain ⟨last, nothing, rfl, hlast, hnothing⟩ := matches_seq_iff.mp hclose
      obtain ⟨c, hc, rfl⟩ := matches_one_iff.mp hopen
      obtain ⟨d, hd, rfl⟩ := matches_one_iff.mp hlast
      obtain rfl := matches_empty_iff.mp hnothing
      obtain rfl := List.mem_singleton.mp (List.contains_iff_mem.mp hc)
      obtain rfl := List.mem_singleton.mp (List.contains_iff_mem.mp hd)
    · exact ⟨'"', body, fun _ => hbody, rfl⟩
    · exact ⟨'\'', body, fun hquote => absurd hquote (by decide), rfl⟩
  obtain ⟨quoteMark, body, hbody, rfl⟩ := hsplit
  rw [quote, List.cons_append, List.cons_append] at h
  obtain ⟨rfl, htail⟩ := List.cons.inj h
  rw [List.append_assoc, List.append_assoc] at htail
  rw [quote, eq_escape_of_matches (hbody rfl) htail]

/-- A text between double quotes, whatever follows. -/
theorem pieceAt_quote (text rest : List Char) :
    pieceAt '"' (escape text ++ ['"'] ++ rest) = (some .string, (escape text ++ ['"']).length) := by
  have hinput : '"' :: (escape text ++ ['"'] ++ rest) = quote text ++ rest := rfl
  have hlength : (escape text ++ ['"']).length + 1 = (quote text).length := rfl
  obtain ⟨before, later, hrules, hbefore⟩ : ∃ before later,
      rules = before ++ (.token .string, stringLiteral) :: later
        ∧ (before.all fun rule => !rule.1.isString) = true :=
    ⟨rules.take 13, rules.drop 14, rfl, rfl⟩
  apply pieceAt_of_longestRule?
  refine longestRule?_of_startOnly startOnly_quote (List.mem_singleton.mpr rfl) hrules hbefore
    ⟨by simp, ?_⟩ ?_
  · rw [hinput, hlength, List.take_left]
    exact matches_stringLiteral_quote text
  · intro rule hrule hstring m _ hfits
    rw [hinput, eq_stringRule hrule hstring] at hfits
    have hwhole := eq_quote_of_matches hfits.2 (List.take_append_drop m (quote text ++ rest)).symm
    rw [hlength, ← hwhole, List.length_take]
    exact Nat.le_of_eq (Nat.min_eq_left hfits.1).symm

/-! ## Blanks -/

/-- The characters that only blanks start with. -/
def blankStarts : List Char :=
  [' ', '\t', '\r', '\n', '\x0c']

/-- The piece is no token. -/
def Piece.isBlank : Piece → Bool
  | .blank => true
  | _ => false

theorem startOnly_blankStarts : StartOnly blankStarts Piece.isBlank := by
  unfold StartOnly
  decide

theorem mem_blankStarts {c : Char} (h : Pattern.isBlank c = true) : c ∈ blankStarts := by
  simpa [Pattern.isBlank, blankStarts, or_assoc] using h

theorem blankRules_le {rule : Piece × Pattern} (hrule : rule ∈ rules)
    (hblank : rule.1.isBlank = true) {first : Char} {more rest : List Char}
    (hfirst : Pattern.isBlank first = true)
    (hrest : ∀ c ∈ rest.head?, Pattern.isBlank c = false) {m : Nat} (hm : 0 < m)
    (hfits : Fits rule.2 ((first :: more) ++ rest) m) : m ≤ (first :: more).length := by
  revert rule
  rw [forall_mem_rules]
  simp only [Piece.isBlank, Bool.false_eq_true, false_implies, implies_true, true_and, and_true,
    forall_const]
  refine ⟨?_, ?_⟩
  · intro hfits
    have hwithin : blanks.Within Pattern.isBlank := ⟨fun _ => id, fun _ => id⟩
    exact hwithin.le_of_fits hrest hfits
  · -- a line comment starts with a slash
    intro hfits
    obtain ⟨t, u, htext, ht, -⟩ := matches_seq_iff.mp hfits.2
    obtain ⟨m, rfl⟩ := Nat.exists_eq_succ_of_ne_zero (Nat.ne_of_gt hm)
    rw [matches_literal_iff.mp ht] at htext
    obtain rfl : first = '/' := (List.cons.inj htext).1
    exact absurd hfirst (by decide)

/-- Blanks up to a character that is none. -/
theorem pieceAt_blanks {first : Char} {more rest : List Char}
    (h : ∀ c ∈ first :: more, Pattern.isBlank c = true)
    (hrest : ∀ c ∈ rest.head?, Pattern.isBlank c = false) :
    pieceAt first (more ++ rest) = (none, more.length) := by
  have hfirst := h first List.mem_cons_self
  have htake : (first :: (more ++ rest)).take (more.length + 1) = first :: more := by simp
  obtain ⟨before, later, hrules, hbefore⟩ : ∃ before later,
      rules = before ++ (.blank, blanks) :: later
        ∧ (before.all fun rule => !rule.1.isBlank) = true :=
    ⟨rules.take 39, rules.drop 40, rfl, rfl⟩
  have hlongest :
      longestRule? (first :: (more ++ rest)) rules = some (.blank, more.length + 1) := by
    refine longestRule?_of_startOnly startOnly_blankStarts (mem_blankStarts hfirst) hrules hbefore
      ⟨by simp, ?_⟩ ?_
    · rw [htake, ← List.singleton_append]
      exact .seq (.one hfirst)
        (matches_many_one fun c hc => h c (List.mem_cons_of_mem first hc))
    · intro rule hrule hblank m hm hfits
      exact blankRules_le hrule hblank hfirst hrest hm hfits
  simp only [pieceAt, hlongest]

end Specimen.Source
