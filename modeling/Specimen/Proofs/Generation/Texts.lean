import Specimen.Generation.Basic
import Specimen.Proofs.Binary64.Value
import Specimen.Proofs.Generation.Leaf
import Specimen.Proofs.Random.Watched

/-!
# Texts that rules ask for

The characters of a text are looked up: a letter or digit by its place in a table, an ideograph by
its code point. For other places and code points a lookup fails, and the text would lose a character
by that. `Leaf.candidates` draws what is looked up and keeps the lookups that fail; there are none
(`textOfForm_spec`). The bounds of a rule stand for lengths of any kind of double (`lengthBound_lt`,
`lengthBound_of_isFinite`), and a text has a length between the two.

There may be no room for a text of the length that is drawn. Then the run breaks off, and only then
(`fieldValue_text`). Bounds for which that happens are lengths like any other
(`fieldValue_text_brokenOff`).
-/

namespace Specimen

theorem gather_map {m : Type → Type} [Monad m] [LawfulMonad m] {α β : Type} (f : α → β)
    (action : m α) (count : Nat) :
    gather (f <$> action) count = List.map f <$> gather action count := by
  induction count with
  | zero => simp [gather]
  | succ count ih => simp [gather, ih]

namespace Leaf

variable {σ : Type} [WordSource σ]

/-! ## Lookups -/

/-- The character of a code point. A surrogate has none, nor has a number that is no code point. -/
def charOfCode? (code : Nat) : Option Char :=
  if h : code.isValidChar then some (Char.ofNatAux code h) else none

/-- A letter or digit, if there is one at the place that is drawn. -/
def latinChar? : Draw σ (Option Char) := do
  let place ← Draw.place latinChars.size
  return latinChars[place]?

/-- An ideograph, if there is one of the code point that is drawn. -/
def ideograph? : Draw σ (Option Char) := do
  let offset ← Draw.below32 (lastIdeograph - firstIdeograph + 1)
  return charOfCode? (firstIdeograph + offset)

/-- A character of a Latin text or of one of ideographs, if there is one. -/
def charOf? : (latin : Bool) → Draw σ (Option Char)
  | true => latinChar?
  | false => ideograph?

/-- The characters that are looked up for a text whose form has been drawn. -/
def candidatesOfForm (form : Nat × Bool) : Draw σ (List (Option Char)) :=
  gather (charOf? form.2) form.1

/-- The characters that are looked up for a text with a length between two bounds. -/
def candidates (bound other : Nat) (alphabet : Alphabet) : Draw σ (List (Option Char)) :=
  textForm bound other alphabet >>= candidatesOfForm

theorem latinChar?_eq : latinChar? (σ := σ) = some <$> latinChar := by
  have hsize : 0 < latinChars.size ∧ latinChars.size ≤ UInt64.size := by decide
  have hplace := Draw.place_lt (σ := σ) hsize.1 hsize.2
  simp only [latinChar?, latinChar, bind_pure_comp, Functor.map_map]
  refine hplace.map_congr fun place hplace => ?_
  rw [Array.getElem?_eq_getElem hplace, Array.getD, dif_pos hplace]
  rfl

theorem ideograph?_eq : ideograph? (σ := σ) = some <$> ideograph := by
  have hoffset : Draw.Ensures (σ := σ) (Draw.below32 (lastIdeograph - firstIdeograph + 1)) _ :=
    Draw.below32_lt (by decide) (by decide)
  simp only [ideograph?, ideograph, bind_pure_comp, Functor.map_map]
  refine hoffset.map_congr fun offset hoffset => ?_
  have hvalid : (firstIdeograph + offset).isValidChar := by
    simp only [firstIdeograph, lastIdeograph] at *
    exact .inl (by omega)
  rw [charOfCode?, Char.ofNat, dif_pos hvalid, dif_pos hvalid]

/-- Every lookup succeeds. -/
theorem charOf?_eq (latin : Bool) : charOf? (σ := σ) latin = some <$> charOf latin := by
  cases latin with
  | true => exact latinChar?_eq
  | false => exact ideograph?_eq

/-- A text that there is room for consists of what is looked up. -/
theorem candidatesOfForm_eq {form : Nat × Bool} (hroom : form.1 ≤ roomFor form.2) :
    candidatesOfForm (σ := σ) form
      = (fun text => text.toList.map some) <$> textOfForm form := by
  rw [textOfForm, textWithin_of_le hroom, candidatesOfForm, charOf?_eq, gather_map]
  simp

/-! ## Where a run breaks off -/

/-- Nothing breaks the run off before the characters of a text. -/
theorem steady_textForm (bound other : Nat) (alphabet : Alphabet) :
    Draw.Steady (σ := σ) (textForm bound other alphabet) := by
  refine (Draw.Steady.between _ _).bind fun length => ?_
  cases alphabet with
  | latin => exact .pure _
  | ideographs => exact .pure _
  | mixed => exact Draw.Steady.coin.bind fun _ => .pure _

theorem steady_charOf (latin : Bool) : Draw.Steady (σ := σ) (charOf latin) := by
  cases latin with
  | true => exact (Draw.Steady.place _).bind fun _ => .pure _
  | false => exact (Draw.Steady.word32.below _ _).bind fun _ => .pure _

/-- A text that there is room for does not break the run off. -/
theorem steady_textOfForm {form : Nat × Bool} (hroom : form.1 ≤ roomFor form.2) :
    Draw.Steady (σ := σ) (textOfForm form) := by
  rw [textOfForm, textWithin_of_le hroom]
  exact ((steady_charOf form.2).gather form.1).map _

/-- The run breaks off in a text exactly if there is no room for its form. -/
theorem brokenOff_text (bound other : Nat) (alphabet : Alphabet) (source : σ) :
    let start := Watched.start source
    let form := (textForm bound other alphabet start).1
    (text bound other alphabet start).2.brokenOff = true ↔ roomFor form.2 < form.1 := by
  intro start form
  have hform := steady_textForm bound other alphabet start
  have htext : text bound other alphabet start
      = textOfForm form (textForm bound other alphabet start).2 := by
    rw [text_eq]
    rfl
  rw [htext]
  constructor
  · intro hbroken
    by_contra hroom
    have hsteady := steady_textOfForm (Nat.not_lt.mp hroom) (textForm bound other alphabet start).2
    rw [hsteady, hform] at hbroken
    cases hbroken
  · intro hroom
    rw [textOfForm, textWithin, if_pos hroom]
    rfl

end Leaf

namespace Generation

/-! ## Bounds of lengths -/

/-- A finite bound is rounded to the nearest length, a half going up. -/
theorem lengthBound_of_isFinite {bound : Float} (hfinite : bound.isFinite = true) (default_ : Nat) :
    (lengthBound (some bound) default_ : Int)
      = max 0 (min ⌊Binary64.value bound + 1 / 2⌋ (UInt64.size - 1)) := by
  unfold lengthBound
  simp only [hfinite, if_true]
  cases hsign : Binary64.isNegative bound with
  | false =>
      have hrounded := Binary64.natCast_roundedMagnitude hsign
      simp only [Bool.false_eq_true, if_false, UInt64.size]
      omega
  | true =>
      have hvalue := Binary64.value_nonpos hsign
      have hfloor : ⌊Binary64.value bound + 1 / 2⌋ < 1 := Int.floor_lt.mpr (by push_cast; linarith)
      simp only [if_true, UInt64.size]
      omega

theorem lengthBound_lt (bound : Option Float) {default_ : Nat} (hdefault : default_ < UInt64.size) :
    lengthBound bound default_ < UInt64.size := by
  cases bound with
  | none => exact hdefault
  | some bound =>
      cases hfinite : bound.isFinite with
      | false => simpa [lengthBound, hfinite] using hdefault
      | true =>
          have hbound := lengthBound_of_isFinite hfinite default_
          simp only [UInt64.size] at *
          omega

/-! ## Fields -/

section Fields

variable {σ : Type} [WordSource σ] {options : Options} {rule : FieldRule} {field : Field}

/-- A rule without an override has the last word on its field. -/
theorem fieldValue_of_rule (index : Index) (enter : Enter σ) (guard : Guard)
    (hrule : options.find? field.name = some (.rule rule)) (hplain : rule.override = none) :
    fieldValue index enter options guard field = ruleValue index enter rule field.type := by
  simp only [fieldValue, hrule, hplain, bind_pure]

theorem ruleValue_string (index : Index) (enter : Enter σ) (type : TypeRef) (source : σ)
    (hkind : rule.kind = .string) :
    ruleValue index enter rule type source
      = let drawn := Leaf.text (lengthBound rule.least 1) (lengthBound rule.greatest 10)
          (rule.alphabet.getD .mixed) source
        some (.string drawn.1, drawn.2) := by
  rw [ruleValue, hkind]
  rfl

/-- Whatever the bounds of a rule are, a length between the two is drawn, and the run breaks off
exactly if there is no room for a text of that length. Otherwise there is a text of the alphabet
that the rule asks for, with a length between the bounds, and every character that was looked up
for it is in it. -/
theorem fieldValue_text (index : Index) (enter : Enter (Watched σ)) (guard : Guard) (source : σ)
    (hrule : options.find? field.name = some (.rule rule)) (hkind : rule.kind = .string)
    (hplain : rule.override = none) :
    let first := lengthBound rule.least 1
    let second := lengthBound rule.greatest 10
    let alphabet := rule.alphabet.getD .mixed
    let start := Watched.start source
    let form := (Leaf.textForm first second alphabet start).1
    ∃ text rest, fieldValue index enter options guard field start = some (.string text, rest)
      ∧ min first second ≤ form.1 ∧ form.1 ≤ max first second
      ∧ (rest.brokenOff = true ↔ Leaf.roomFor form.2 < form.1)
      ∧ (max first second ≤ Leaf.room alphabet → rest.brokenOff = false)
      ∧ (rest.brokenOff = false →
        min first second ≤ text.length ∧ text.length ≤ max first second
          ∧ Leaf.IsOf alphabet text
          ∧ Leaf.candidates first second alphabet start = (text.toList.map some, rest)) := by
  intro first second alphabet start form
  have hsize : max first second < UInt64.size :=
    max_lt (lengthBound_lt _ (by decide)) (lengthBound_lt _ (by decide))
  obtain ⟨hleast, hgreatest, hallows⟩ := Leaf.textForm_spec alphabet hsize start
  have hbroken := Leaf.brokenOff_text first second alphabet source
  have hvalue := ruleValue_string index enter field.type start hkind
  rw [← fieldValue_of_rule index enter guard hrule hplain] at hvalue
  refine ⟨_, _, hvalue, hleast, hgreatest, hbroken, fun hroom => ?_, fun hunbroken => ?_⟩
  · refine Bool.eq_false_iff.mpr (mt hbroken.mp (Nat.not_lt.mpr ?_))
    exact Nat.le_trans hgreatest (Nat.le_trans hroom (Leaf.room_le_roomFor hallows))
  · have hroom : form.1 ≤ Leaf.roomFor form.2 :=
      Nat.not_lt.mp (mt hbroken.mpr (Bool.eq_false_iff.mp hunbroken))
    obtain ⟨hlength, halphabet⟩ := Leaf.textOfForm_isOf hroom hallows
      (Leaf.textForm first second alphabet start).2
    rw [Leaf.text_eq]
    refine ⟨hlength ▸ hleast, hlength ▸ hgreatest, halphabet, ?_⟩
    show Leaf.candidatesOfForm form _ = _
    rw [Leaf.candidatesOfForm_eq hroom]
    rfl

/-- The bounds are reversed, and one is rounded. -/
theorem fieldValue_text_reversed :
    let rule : FieldRule := ⟨.string, some 2.5, some 1, none, some .latin, none, none⟩
    let options : Options := ⟨[("name", .rule rule)]⟩
    let field : Field := ⟨"name", .primitive .string, false⟩
    let index := Index.ofList []
    let source := WordCycle.ofList [1, 9223372036854775808]
    options.find? field.name = some (.rule rule) ∧ rule.kind = .string ∧ rule.override = none
      ∧ ∃ text rest, fieldValue index (declared index 0) options .start field
            (Watched.start source)
          = some (.string text, rest)
        ∧ rest.brokenOff = false
        ∧ 1 ≤ text.length ∧ text.length ≤ 3 ∧ ∀ c ∈ text.toList, c.isAlphanum := by
  intro rule options field index source
  have hrule : options.find? field.name = some (.rule rule) := rfl
  obtain ⟨text, rest, hvalue, -, -, -, hroom, htext⟩ :=
    fieldValue_text index (declared index 0) .start source hrule rfl rfl
  have hfirst : lengthBound rule.least 1 = 3 := rfl
  have hsecond : lengthBound rule.greatest 10 = 1 := rfl
  rw [hfirst, hsecond] at hroom htext
  have hunbroken := hroom (by decide)
  obtain ⟨hleast, hgreatest, halphabet, -⟩ := htext hunbroken
  exact ⟨hrule, rfl, rfl, text, rest, hvalue, hunbroken, hleast, hgreatest, halphabet⟩

/-- Both bounds are the same length, for which there is no room. -/
theorem fieldValue_text_brokenOff :
    let bound := Binary64.ofInt (10 ^ 19)
    let rule : FieldRule := ⟨.string, some bound, some bound, none, some .latin, none, none⟩
    let options : Options := ⟨[("name", .rule rule)]⟩
    let field : Field := ⟨"name", .primitive .string, false⟩
    let index := Index.ofList []
    lengthBound rule.least 1 = 10 ^ 19 ∧ lengthBound rule.greatest 10 = 10 ^ 19
      ∧ ∃ standIn rest, fieldValue index (declared index 0) options .start field
            (Watched.start (WordCycle.ofList [0])) = some (.string standIn, rest)
          ∧ rest.brokenOff = true := by
  intro bound rule options field index
  have hbounds : lengthBound rule.least 1 = 10 ^ 19 ∧ lengthBound rule.greatest 10 = 10 ^ 19 := by
    decide +kernel
  have hrule : options.find? field.name = some (.rule rule) := rfl
  have hkind : rule.kind = .string := rfl
  let start := Watched.start (WordCycle.ofList [0])
  have hvalue := ruleValue_string index (declared index 0) field.type start hkind
  rw [← fieldValue_of_rule index (declared index 0) .start hrule rfl, hbounds.1, hbounds.2]
    at hvalue
  refine ⟨hbounds.1, hbounds.2, _, _, hvalue, (Leaf.brokenOff_text _ _ _ _).mpr ?_⟩
  have hsize : max (10 ^ 19) (10 ^ 19) < UInt64.size := by decide
  obtain ⟨hleast, -, hlatin⟩ := Leaf.textForm_spec .latin hsize start
  have hroom : Leaf.latinRoom < min (10 ^ 19) (10 ^ 19) := by decide
  show Leaf.roomFor (Leaf.textForm (10 ^ 19) (10 ^ 19) .latin start).1.2 < _
  rw [show (Leaf.textForm (10 ^ 19) (10 ^ 19) .latin start).1.2 = true from hlatin]
  exact Nat.lt_of_lt_of_le hroom hleast

end Fields

end Generation

end Specimen
