import Specimen.Generation.Leaf
import Specimen.Proofs.Binary64.Value
import Specimen.Proofs.Random.Range

/-!
# What leaves are

A text that there is room for has a length between its bounds and is of its alphabet; an integer
is between the integers next to its bounds. `FitsPrimitive` says what a value of a built-in type
is when nothing else is said about it.
-/

namespace Specimen.Leaf

variable {σ : Type} [WordSource σ]

/-- The character is one of the ideographs that texts are made of. -/
def IsIdeograph (c : Char) : Prop :=
  firstIdeograph ≤ c.toNat ∧ c.toNat ≤ lastIdeograph

/-- All characters are Latin letters and digits, or all are ideographs. -/
def IsOfOneAlphabet (text : String) : Prop :=
  (∀ c ∈ text.toList, c.isAlphanum) ∨ ∀ c ∈ text.toList, IsIdeograph c

/-- The text is of the alphabet. A mixed text is of one of the two. -/
def IsOf : Alphabet → String → Prop
  | .latin, text => ∀ c ∈ text.toList, c.isAlphanum
  | .ideographs, text => ∀ c ∈ text.toList, IsIdeograph c
  | .mixed, text => IsOfOneAlphabet text

/-! ## Texts -/

theorem isAlphanum_of_mem_latinChars : ∀ c ∈ latinChars, c.isAlphanum := by
  have hall : latinChars.toList.all Char.isAlphanum = true := by rfl
  intro c hc
  exact List.all_eq_true.mp hall c (Array.mem_toList_iff.mpr hc)

theorem latinChar_isAlphanum : Draw.Ensures (σ := σ) latinChar (Char.isAlphanum ·) := by
  refine (Draw.any _).bind fun place _ => .pure ?_
  rw [Array.getD]
  split
  · exact isAlphanum_of_mem_latinChars _ (Array.getElem_mem _)
  · decide

theorem isIdeograph_ofNat {offset : Nat} (h : offset < lastIdeograph - firstIdeograph + 1) :
    IsIdeograph (Char.ofNat (firstIdeograph + offset)) := by
  simp only [firstIdeograph, lastIdeograph] at h
  have hvalid : (0x4E00 + offset).isValidChar := .inl (by omega)
  have htoNat : (Char.ofNat (0x4E00 + offset)).toNat = 0x4E00 + offset := by
    rw [Char.ofNat, dif_pos hvalid]
    rfl
  simp only [IsIdeograph, firstIdeograph, lastIdeograph, htoNat]
  omega

theorem ideograph_isIdeograph : Draw.Ensures (σ := σ) ideograph IsIdeograph := by
  refine (Draw.below32_lt (by decide) (by decide)).bind fun offset hoffset => .pure ?_
  exact isIdeograph_ofNat hoffset

theorem textWithin_of_le {room length : Nat} (h : length ≤ room) (char : Draw σ Char) :
    textWithin room char length = String.ofList <$> gather char length :=
  if_neg (Nat.not_lt.mpr h)

theorem textWithin_ensures {room length : Nat} {char : Draw σ Char} {P : Char → Prop}
    (h : length ≤ room) (hchar : char.Ensures P) :
    (textWithin room char length).Ensures fun text =>
      text.length = length ∧ ∀ c ∈ text.toList, P c := by
  rw [textWithin_of_le h, map_eq_pure_bind]
  refine (hchar.gather length).bind fun chars hchars => .pure ?_
  simpa using hchars

/-- A character of a Latin text or of one of ideographs. -/
def charOf : (latin : Bool) → Draw σ Char
  | true => latinChar
  | false => ideograph

/-- The greatest length that there is room for, for a Latin text or for one of ideographs. -/
def roomFor : (latin : Bool) → Nat
  | true => latinRoom
  | false => ideographRoom

/-- The greatest length for which any text of the alphabet has room. -/
def room : Alphabet → Nat
  | .latin => latinRoom
  | .ideographs | .mixed => ideographRoom

/-- Lengths of thirty-two bits have room. -/
theorem le_room (alphabet : Alphabet) : 2 ^ 32 ≤ room alphabet := by
  cases alphabet <;> decide

theorem room_lt (alphabet : Alphabet) : room alphabet < UInt64.size := by
  cases alphabet <;> decide

/-- Texts of the alphabet may be Latin, or may not be. -/
def Allows : Alphabet → Bool → Prop
  | .latin, latin => latin = true
  | .ideographs, latin => latin = false
  | .mixed, _ => True

theorem room_le_roomFor {alphabet : Alphabet} {latin : Bool} (h : Allows alphabet latin) :
    room alphabet ≤ roomFor latin := by
  cases alphabet with
  | latin => rw [h]; exact Nat.le_refl _
  | ideographs => rw [h]; exact Nat.le_refl _
  | mixed => cases latin <;> decide

theorem isLatin_allows (alphabet : Alphabet) :
    Draw.Ensures (σ := σ) (isLatin alphabet) (Allows alphabet) := by
  cases alphabet with
  | latin => exact .pure rfl
  | ideographs => exact .pure rfl
  | mixed => exact Draw.any _

/-- What is drawn before the characters of a text: a length between the bounds, and one of the kinds
that the alphabet allows. -/
theorem textForm_spec {bound other : Nat} (alphabet : Alphabet)
    (hsize : max bound other < UInt64.size) :
    Draw.Ensures (σ := σ) (textForm bound other alphabet) fun form =>
      min bound other ≤ form.1 ∧ form.1 ≤ max bound other ∧ Allows alphabet form.2 := by
  have horder : min bound other ≤ max bound other := by omega
  refine (Draw.between_mem_range horder hsize).bind fun length hlength => ?_
  refine (isLatin_allows alphabet).bind fun latin hlatin => .pure ?_
  exact ⟨hlength.1, hlength.2, hlatin⟩

/-- A text whose form has been drawn. -/
def textOfForm (form : Nat × Bool) : Draw σ String :=
  textWithin (roomFor form.2) (charOf form.2) form.1

theorem text_eq (bound other : Nat) (alphabet : Alphabet) :
    text (σ := σ) bound other alphabet = textForm bound other alphabet >>= textOfForm := by
  unfold text
  congr 1
  funext form
  obtain ⟨length, latin⟩ := form
  cases latin <;> rfl

/-- A text that there is room for has the length and the kind of its form. -/
theorem textOfForm_isOf {alphabet : Alphabet} {form : Nat × Bool} (hroom : form.1 ≤ roomFor form.2)
    (hallows : Allows alphabet form.2) :
    Draw.Ensures (σ := σ) (textOfForm form) fun text =>
      text.length = form.1 ∧ IsOf alphabet text := by
  obtain ⟨length, latin⟩ := form
  cases latin with
  | true =>
      refine (textWithin_ensures hroom latinChar_isAlphanum).mono ?_
      rintro text ⟨hlength, htext⟩
      cases alphabet with
      | latin => exact ⟨hlength, htext⟩
      | ideographs => cases hallows
      | mixed => exact ⟨hlength, .inl htext⟩
  | false =>
      refine (textWithin_ensures hroom ideograph_isIdeograph).mono ?_
      rintro text ⟨hlength, htext⟩
      cases alphabet with
      | latin => cases hallows
      | ideographs => exact ⟨hlength, htext⟩
      | mixed => exact ⟨hlength, .inr htext⟩

/-- A text with room for the greatest length. -/
theorem text_isOf {bound other : Nat} {alphabet : Alphabet}
    (hroom : max bound other ≤ room alphabet) :
    Draw.Ensures (σ := σ) (text bound other alphabet) fun text =>
      min bound other ≤ text.length ∧ text.length ≤ max bound other ∧ IsOf alphabet text := by
  have hsize : max bound other < UInt64.size := Nat.lt_of_le_of_lt hroom (room_lt alphabet)
  rw [text_eq]
  refine (textForm_spec alphabet hsize).bind ?_
  rintro form ⟨hleast, hmost, hallows⟩
  have hform : form.1 ≤ roomFor form.2 :=
    Nat.le_trans hmost (Nat.le_trans hroom (room_le_roomFor hallows))
  refine (textOfForm_isOf hform hallows).mono ?_
  rintro text ⟨hlength, htext⟩
  exact ⟨hlength ▸ hleast, hlength ▸ hmost, htext⟩

/-! ## Bounds of numbers -/

/-- The value of a bound, or a default if the bound is missing or not finite. -/
def boundValue (bound : Option Float) (default_ : ℚ) : ℚ :=
  match bound with
  | none => default_
  | some bound => if bound.isFinite then Binary64.value bound else default_

/-- What a bound counts as is finite. -/
theorem value_of_bound (bound : Option Float) {default_ : Float}
    (hdefault : default_.isFinite = true) :
    let present := bound.getD default_
    let finite := if present.isFinite then present else default_
    finite.isFinite = true
    ∧ Binary64.value finite = boundValue bound (Binary64.value default_) := by
  cases bound with
  | none => simp [hdefault, boundValue]
  | some bound => cases hfinite : bound.isFinite <;> simp [hfinite, hdefault, boundValue]

/-- Two finite doubles that are put in order. -/
theorem value_of_ordered {x y : Float} (hx : x.isFinite = true) (hy : y.isFinite = true) :
    let ordered := if y < x then (y, x) else (x, y)
    Binary64.value ordered.1 = min (Binary64.value x) (Binary64.value y)
      ∧ Binary64.value ordered.2 = max (Binary64.value x) (Binary64.value y) := by
  dsimp only
  split
  · rename_i hreversed
    have hlt := (Binary64.lt_iff_value_lt hy hx).mp hreversed
    exact ⟨(min_eq_right hlt.le).symm, (max_eq_left hlt.le).symm⟩
  · rename_i horder
    have hle := not_lt.mp (mt (Binary64.lt_iff_value_lt hy hx).mpr horder)
    exact ⟨(min_eq_left hle).symm, (max_eq_right hle).symm⟩

theorem value_defaultLeast : Binary64.value defaultLeast = 0 :=
  (Binary64.value_ofInt (by decide)).trans Int.cast_zero

theorem value_defaultGreatest : Binary64.value defaultGreatest = 1000 :=
  (Binary64.value_ofInt (by decide)).trans (by norm_num)

/-- The values of the two bounds are in order. -/
theorem value_orderedBounds (least greatest : Option Float) :
    let bounds := orderedBounds (least.getD defaultLeast) (greatest.getD defaultGreatest)
    Binary64.value bounds.1 = min (boundValue least 0) (boundValue greatest 1000)
      ∧ Binary64.value bounds.2 = max (boundValue least 0) (boundValue greatest 1000) := by
  have hdefaultLeast : defaultLeast.isFinite = true := Binary64.isFinite_ofInt (by decide)
  have hdefaultGreatest : defaultGreatest.isFinite = true := Binary64.isFinite_ofInt (by decide)
  obtain ⟨hfirst, hleast⟩ := value_of_bound least hdefaultLeast
  obtain ⟨hsecond, hgreatest⟩ := value_of_bound greatest hdefaultGreatest
  rw [value_defaultLeast] at hleast
  rw [value_defaultGreatest] at hgreatest
  rw [← hleast, ← hgreatest]
  exact value_of_ordered hfirst hsecond

/-! ## Integers -/

theorem clampInt64_mem_range (n : Int) :
    Int64.minValue.toInt ≤ clampInt64 n ∧ clampInt64 n ≤ Int64.maxValue.toInt := by
  have hmin := Int64.toInt_minValue
  have hmax := Int64.toInt_maxValue
  unfold clampInt64
  omega

theorem clampInt64_mono {m n : Int} (h : m ≤ n) : clampInt64 m ≤ clampInt64 n := by
  unfold clampInt64
  omega

theorem clampInt64_eq {n : Int} (hleast : -2 ^ 63 ≤ n) (hgreatest : n < 2 ^ 63) :
    clampInt64 n = n := by
  have hmin := Int64.toInt_minValue
  have hmax := Int64.toInt_maxValue
  unfold clampInt64
  omega

theorem toInt_ofInt_clampInt64 (n : Int) : (Int64.ofInt (clampInt64 n)).toInt = clampInt64 n := by
  obtain ⟨hleast, hgreatest⟩ := clampInt64_mem_range n
  have hmin := Int64.toInt_minValue
  have hmax := Int64.toInt_maxValue
  apply Int64.toInt_ofInt_of_le <;> omega

/-- The ends of the range of integers in terms of the values of the bounds. -/
theorem clampInt64_orderedBounds (least greatest : Option Float) :
    let bounds := orderedBounds (least.getD defaultLeast) (greatest.getD defaultGreatest)
    clampInt64 (Binary64.ceiling bounds.1)
        = clampInt64 ⌈min (boundValue least 0) (boundValue greatest 1000)⌉
      ∧ clampInt64 (Binary64.floor bounds.2)
        = clampInt64 ⌊max (boundValue least 0) (boundValue greatest 1000)⌋ := by
  obtain ⟨hfirst, hsecond⟩ := value_orderedBounds least greatest
  dsimp only
  rw [Binary64.ceiling_eq_ceil_value, Binary64.floor_eq_floor_value, hfirst, hsecond]
  exact ⟨rfl, rfl⟩

/-- If there is no integer between the bounds, then they are so small that the lower one is not
clamped. -/
theorem clampInt64_floor_of_empty {x : Float} {greatest : ℚ} (horder : Binary64.value x ≤ greatest)
    (hempty : clampInt64 ⌊greatest⌋ < clampInt64 ⌈Binary64.value x⌉) :
    clampInt64 ⌊Binary64.value x⌋ = ⌊Binary64.value x⌋ := by
  rcases Binary64.value_whole_or_small x with ⟨n, hn⟩ | hsmall
  · -- a whole bound is an integer between the two
    rw [hn] at horder
    rw [hn, Int.ceil_intCast] at hempty
    have hmono := clampInt64_mono (Int.le_floor.mpr horder)
    omega
  · obtain ⟨hlow, hhigh⟩ := abs_lt.mp hsmall
    have hleast : -(Binary64.fractionCount : Int) ≤ ⌊Binary64.value x⌋ :=
      Int.le_floor.mpr (by push_cast; exact hlow.le)
    have hgreatest : ⌊Binary64.value x⌋ < (Binary64.fractionCount : Int) :=
      Int.floor_lt.mpr (by push_cast; exact hhigh)
    have hmin := Int64.toInt_minValue
    have hmax := Int64.toInt_maxValue
    unfold Binary64.fractionCount at hleast hgreatest
    unfold clampInt64
    omega

/-- If there is an integer between the bounds, then the value is one. -/
theorem integer_mem_range (bound other : Float) {low high : Int}
    (hlow : clampInt64 (Binary64.ceiling (orderedBounds bound other).1) = low)
    (hhigh : clampInt64 (Binary64.floor (orderedBounds bound other).2) = high)
    (horder : low ≤ high) :
    Draw.Ensures (σ := σ) (integer bound other) fun value =>
      low ≤ value.toInt ∧ value.toInt ≤ high := by
  have hleast : Int64.minValue.toInt ≤ low := hlow ▸ (clampInt64_mem_range _).1
  have hgreatest : high ≤ Int64.maxValue.toInt := hhigh ▸ (clampInt64_mem_range _).2
  have hmin := Int64.toInt_minValue
  have hmax := Int64.toInt_maxValue
  unfold integer
  simp only [hlow, hhigh, if_neg (Int.not_lt.mpr horder)]
  refine (Draw.integer_mem_range hleast horder hgreatest).bind fun n hn => .pure ?_
  have hcast : (Int64.ofInt n).toInt = n := by
    apply Int64.toInt_ofInt_of_le <;> omega
  rwa [hcast]

/-- An integer is between its bounds, or just below them if there is none between them. -/
theorem integer_between (least greatest : Option Float) :
    let first := boundValue least 0
    let second := boundValue greatest 1000
    let low := clampInt64 ⌈min first second⌉
    let high := clampInt64 ⌊max first second⌋
    Draw.Ensures (σ := σ)
      (integer (least.getD defaultLeast) (greatest.getD defaultGreatest)) fun value =>
        (low ≤ high → low ≤ value.toInt ∧ value.toInt ≤ high)
        ∧ (high < low → value.toInt = ⌊min first second⌋) := by
  intro first second low high
  obtain ⟨hlow, hhigh⟩ := clampInt64_orderedBounds least greatest
  rcases le_or_gt low high with horder | hempty
  · refine (integer_mem_range _ _ hlow hhigh horder).mono fun value hvalue => ⟨fun _ => hvalue, ?_⟩
    intro hempty
    omega
  · have hvalue := (value_orderedBounds least greatest).1
    unfold integer
    simp only [hlow, hhigh]
    rw [if_pos hempty]
    refine .pure ⟨fun horder => ?_, fun _ => ?_⟩
    · omega
    · rw [toInt_ofInt_clampInt64, Binary64.floor_eq_floor_value,
        clampInt64_floor_of_empty (hvalue ▸ min_le_max) (hvalue ▸ hempty), hvalue]

/-- An integer between small whole bounds. -/
theorem integer_between_natCast {least greatest : Option Float} {low high : Nat}
    (hlow : min (boundValue least 0) (boundValue greatest 1000) = low)
    (hhigh : max (boundValue least 0) (boundValue greatest 1000) = high) (hsmall : high < 2 ^ 63) :
    Draw.Ensures (σ := σ)
      (integer (least.getD defaultLeast) (greatest.getD defaultGreatest)) fun value =>
        low ≤ value.toInt ∧ value.toInt ≤ high := by
  have horder : low ≤ high := by
    rw [← Nat.cast_le (α := ℚ), ← hlow, ← hhigh]
    exact min_le_max
  refine (integer_between least greatest).mono fun value hvalue => ?_
  rw [hlow, hhigh, Int.ceil_natCast, Int.floor_natCast, clampInt64_eq (by omega) (by omega),
    clampInt64_eq (by omega) (by omega)] at hvalue
  exact hvalue.1 (by omega)

/-! ## Built-in types -/

/-- The values of a built-in type when nothing else is said about it. -/
inductive FitsPrimitive : Primitive → Sample → Prop
  | string {text : String} (nonempty : defaultLeastLength ≤ text.length)
      (short : text.length ≤ defaultGreatestLength) (alphabet : IsOfOneAlphabet text) :
      FitsPrimitive .string (.string text)
  | integer {value : Int64} (nonneg : 0 ≤ value.toInt) (small : value.toInt ≤ 1000) :
      FitsPrimitive .number (.int value)
  | float (value : Float) : FitsPrimitive .number (.float value)
  | boolean (value : Bool) : FitsPrimitive .boolean (.bool value)

theorem number_fits : Draw.Ensures (σ := σ) number (FitsPrimitive .number) := by
  refine (Draw.any _).bind fun heads _ => ?_
  cases heads with
  | true =>
      have hlow : min (boundValue none 0) (boundValue none 1000) = (0 : Nat) := by simp [boundValue]
      have hhigh : max (boundValue none 0) (boundValue none 1000) = (1000 : Nat) := by
        simp [boundValue]
      have hrange := integer_between_natCast (σ := σ) hlow hhigh (by decide)
      refine hrange.bind fun value hvalue => .pure ?_
      exact .integer hvalue.1 hvalue.2
  | false => exact (Draw.any _).bind fun value _ => .pure (.float value)

theorem ofPrimitive_fits (type : Primitive) :
    Draw.Ensures (σ := σ) (ofPrimitive type) (FitsPrimitive type) := by
  cases type with
  | string =>
      have hroom : max defaultLeastLength defaultGreatestLength ≤ room .mixed := by decide
      refine (text_isOf hroom).bind fun text htext => .pure ?_
      exact .string htext.1 htext.2.1 htext.2.2
  | number => exact number_fits
  | boolean => exact (Draw.any _).bind fun value _ => .pure (.boolean value)

end Specimen.Leaf
