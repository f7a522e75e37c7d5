import Specimen.Proofs.Source.Rules

/-!
# Texts of several rules

The only texts that rules for different pieces share are the keywords, which are names as well
(`overlap`). So the longest text at the front of an input determines its piece, once keywords are
preferred to names.

Rules with one text only are checked against all rules. A text of any other rule tells its piece by
its first character (`openPiece?`).
-/

namespace Specimen.Source

open Pattern

namespace Pattern

/-- A text of the pattern may begin with the character. -/
def starts (c : Char) : Pattern → Bool
  | .nothing => false
  | .empty => false
  | .one accepts => accepts c
  | .seq p q => p.starts c || (p.acceptsEmpty && q.starts c)
  | .either p q => p.starts c || q.starts c
  | .many p => p.starts c

theorem starts_of_matches {p : Pattern} {c : Char} {s : List Char} (h : Matches p (c :: s)) :
    p.starts c = true := by
  induction p generalizing s with
  | nothing => exact absurd h matches_nothing
  | empty => exact absurd (matches_empty_iff.mp h) (List.cons_ne_nil c s)
  | one accepts =>
      obtain ⟨d, hd, heq⟩ := matches_one_iff.mp h
      cases heq
      exact hd
  | seq p q ihp ihq =>
      obtain ⟨t, u, heq, hp, hq⟩ := matches_seq_iff.mp h
      simp only [starts, Bool.or_eq_true, Bool.and_eq_true]
      cases t with
      | nil =>
          rw [List.nil_append] at heq
          exact .inr ⟨(acceptsEmpty_iff p).mpr hp, ihq (heq ▸ hq)⟩
      | cons d t =>
          cases heq
          exact .inl (ihp hp)
  | either p q ihp ihq =>
      simp only [starts, Bool.or_eq_true]
      exact (matches_either_iff.mp h).imp ihp ihq
  | many p ih =>
      obtain ⟨t, u, -, hp, -⟩ := matches_many_cons h
      exact ih hp

theorem longest?_eq_length_of_matches {p : Pattern} {text : List Char} (h : Matches p text) :
    p.longest? text = some text.length := by
  refine longest?_eq_some_iff.mpr ⟨⟨Nat.le_refl _, ?_⟩, fun m hm => hm.1⟩
  rwa [List.take_length]

end Pattern

namespace Piece

/-- The piece is a keyword. -/
def isKeyword : Piece → Bool
  | .token (.keyword _) => true
  | _ => false

/-- A piece is preferred to itself, and a keyword to a name. -/
def isPreferredTo (piece other : Piece) : Bool :=
  other == piece || (piece.isKeyword && other == .token .identifier)

/-- The text of a piece that has one text only. -/
def fixedText? : Piece → Option (List Char)
  | .token (.keyword word) => some word.text.toList
  | .token (.mark mark) => some mark.text.toList
  | .openComment => some ['/', '*']
  | _ => none

end Piece

/-! ## Rules with one text -/

theorem eq_literal_of_fixedText? {rule : Piece × Pattern} (hrule : rule ∈ rules)
    {text : List Char} (htext : rule.1.fixedText? = some text) : rule.2 = literal text := by
  revert rule
  simp only [forall_mem_rules, Piece.fixedText?, Option.some.injEq, reduceCtorEq, false_implies,
    true_and]
  refine ⟨?_, ?_, ?_⟩
  · rintro word rfl
    rfl
  · rintro mark rfl
    rfl
  · rintro rfl
    rfl

/-- Another rule for the text of a piece with one text, if there is any, is the rule of names. -/
theorem fixed_overlaps : (rules.all fun rule => rules.all fun other =>
    rule.1.fixedText?.all fun text =>
      other.2.longest? text != some text.length || rule.1.isPreferredTo other.1) = true := by
  decide +kernel

theorem overlap_of_fixed {rule other : Piece × Pattern} (hrule : rule ∈ rules)
    (hother : other ∈ rules) {fixed text : List Char} (hfixed : rule.1.fixedText? = some fixed)
    (h : Matches rule.2 text) (h' : Matches other.2 text) :
    rule.1.isPreferredTo other.1 = true := by
  rw [eq_literal_of_fixedText? hrule hfixed, matches_literal_iff] at h
  subst h
  have hcheck := List.all_eq_true.mp (List.all_eq_true.mp fixed_overlaps rule hrule) other hother
  rw [hfixed, Option.all_some, longest?_eq_length_of_matches h'] at hcheck
  simpa using hcheck

/-! ## Rules with many texts -/

/-- The piece with many texts whose texts may begin with the character. -/
def openPiece? (c : Char) : Option Piece :=
  if isNameStart c then some (.token .identifier)
  else if c == '-' || c.isDigit then some (.token .number)
  else if c == '"' || c == '\'' then some (.token .string)
  else if c == '`' then some (.token .template)
  else if Pattern.isBlank c || c == '/' then some .blank
  else none

theorem isNameStart_of_isDigit {c : Char} (h : c.isDigit = true) : isNameStart c = false := by
  simp only [Char.isDigit, Bool.and_eq_true, decide_eq_true_eq, ge_iff_le,
    UInt32.le_iff_toNat_le] at h
  obtain ⟨hge, hle⟩ := h
  have hge : 48 ≤ c.val.toNat := hge
  have hle : c.val.toNat ≤ 57 := hle
  simp only [isNameStart, Bool.or_eq_false_iff, Bool.and_eq_false_imp, decide_eq_true_eq,
    decide_eq_false_iff_not, beq_eq_false_iff_ne, Char.le_def, UInt32.le_iff_toNat_le]
  refine ⟨⟨⟨?_, ?_⟩, ?_⟩, ?_⟩
  · intro hlow
    have hlow : 97 ≤ c.val.toNat := hlow
    omega
  · intro hlow
    have hlow : 65 ≤ c.val.toNat := hlow
    omega
  · rintro rfl
    exact absurd hle (by decide)
  · rintro rfl
    exact absurd hge (by decide)

theorem openPiece?_of_isDigit {c : Char} (h : c.isDigit = true) :
    openPiece? c = some (.token .number) := by
  rw [openPiece?, isNameStart_of_isDigit h, h]
  simp

theorem openPiece?_of_isBlank {c : Char} (h : Pattern.isBlank c = true) :
    openPiece? c = some .blank := by
  simp only [Pattern.isBlank, Bool.or_eq_true, beq_iff_eq] at h
  rcases h with (((rfl | rfl) | rfl) | rfl) | rfl <;> decide

theorem openPiece?_of_starts {rule : Piece × Pattern} (hrule : rule ∈ rules)
    (hopen : rule.1.fixedText? = none) {c : Char} (hc : rule.2.starts c = true) :
    openPiece? c = some rule.1 := by
  revert rule
  simp only [forall_mem_rules, Piece.fixedText?, reduceCtorEq, false_implies, true_and,
    implies_true, and_true, forall_const]
  refine ⟨?_, ?_, ?_, ?_, ?_, ?_, ?_⟩
  · intro hc
    have hc : c = '-' ∨ c.isDigit = true := by
      simpa [decimalNumber, Pattern.sequence, Pattern.optional, anyOf, starts, acceptsEmpty]
        using hc
    rcases hc with rfl | hc
    · decide
    · exact openPiece?_of_isDigit hc
  · intro hc
    obtain rfl : c = '0' := by
      simpa [hexNumber, Pattern.sequence, anyOf, starts, acceptsEmpty] using hc
    decide
  · intro hc
    have hc : c = '"' ∨ c = '\'' := by
      simpa [stringLiteral, quoted, Pattern.sequence, anyOf, starts, acceptsEmpty] using hc
    rcases hc with rfl | rfl <;> decide
  · intro hc
    obtain rfl : c = '`' := by
      simpa [templateLiteral, quoted, Pattern.sequence, anyOf, starts, acceptsEmpty] using hc
    decide
  · intro hc
    have hc : isNameStart c = true := by simpa [name, starts, acceptsEmpty] using hc
    rw [openPiece?, if_pos hc]
  · intro hc
    apply openPiece?_of_isBlank
    simpa [blanks, repeated, starts, acceptsEmpty] using hc
  · intro hc
    obtain rfl : c = '/' := by simpa [lineComment, literal, starts, acceptsEmpty] using hc
    decide

/-- Two rules share a text only if they are for the same piece, or for a keyword and for names. -/
theorem overlap {rule other : Piece × Pattern} (hrule : rule ∈ rules) (hother : other ∈ rules)
    {text : List Char} (htext : text ≠ []) (h : Matches rule.2 text) (h' : Matches other.2 text) :
    rule.1.isPreferredTo other.1 = true ∨ other.1.isPreferredTo rule.1 = true := by
  cases hfixed : rule.1.fixedText? with
  | some fixed => exact .inl (overlap_of_fixed hrule hother hfixed h h')
  | none =>
      cases hfixed' : other.1.fixedText? with
      | some fixed => exact .inr (overlap_of_fixed hother hrule hfixed' h' h)
      | none =>
          obtain ⟨c, s, rfl⟩ := List.exists_cons_of_ne_nil htext
          have hpiece := openPiece?_of_starts hrule hfixed (starts_of_matches h)
          have hpiece' := openPiece?_of_starts hother hfixed' (starts_of_matches h')
          have hsame : other.1 = rule.1 := Option.some.inj (hpiece'.symm.trans hpiece)
          exact .inl (by simp [Piece.isPreferredTo, hsame])

end Specimen.Source
