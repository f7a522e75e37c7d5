import Specimen.Proofs.Generation.Texts
import Specimen.Proofs.Random.Words

/-!
# Numbers that rules ask for

An integer that a rule asks for is between the integers next to its bounds, whatever the bounds are
(`fieldValue_integer`). `Leaf.integer?` counts the range in words of sixty-four bits: it is never
empty, and where it has all integers its width wraps round without harm (`integer?_eq`,
`integer_eq_next64`).

A bound that is missing counts as a default, also where the default is on the wrong side of the
bound that is there. The two are in order then, but the bound has become the other one. So a rule
keeps a bound that it has alone only if the bound is on its side of the default
(`fieldValue_loneBound`).
-/

namespace Specimen

namespace Leaf

variable {σ : Type} [WordSource σ]

/-! ## The range of integers -/

/-- An integer between two bounds, computed in words; none if the range would be empty that it is
drawn from. -/
def integer? (bound other : Float) : Option (Draw σ Int64) :=
  let (least, greatest) := orderedBounds bound other
  let low := Int64.ofInt (clampInt64 (Binary64.ceiling least))
  let high := Int64.ofInt (clampInt64 (Binary64.floor greatest))
  if high < low then some (pure (Int64.ofInt (clampInt64 (Binary64.floor least))))
  else Draw.int64? low high

/-- The range is not empty, and words make no difference. -/
theorem integer?_eq (bound other : Float) :
    integer? (σ := σ) bound other = some (integer bound other) := by
  unfold integer? integer
  simp only [Int64.lt_iff_toInt_lt, toInt_ofInt_clampInt64]
  split
  · rfl
  · rename_i hnonempty
    rw [Draw.int64?_eq]
    · simp only [toInt_ofInt_clampInt64, bind_pure_comp]
    · simpa only [toInt_ofInt_clampInt64] using Int.not_lt.mp hnonempty

/-- From the range of all integers a word is drawn, and read with its sign. -/
theorem integer_eq_next64 {bound other : Float}
    (hlow : clampInt64 (Binary64.ceiling (orderedBounds bound other).1) = Int64.minValue.toInt)
    (hhigh : clampInt64 (Binary64.floor (orderedBounds bound other).2) = Int64.maxValue.toInt) :
    integer (σ := σ) bound other = UInt64.toInt64 <$> (WordSource.next64 : Draw σ UInt64) := by
  have hwords := integer?_eq (σ := σ) bound other
  unfold integer? at hwords
  simp only [hlow, hhigh, Int64.ofInt_toInt] at hwords
  exact (Option.some.inj hwords).symm

end Leaf

namespace Generation

section Fields

variable {σ : Type} [WordSource σ] {options : Options} {rule : FieldRule} {field : Field}

theorem ruleValue_integer (index : Index) (enter : Enter σ) (type : TypeRef) (source : σ)
    (hkind : rule.kind = .integer) :
    ruleValue index enter rule type source
      = let drawn := Leaf.integer (rule.least.getD Leaf.defaultLeast)
          (rule.greatest.getD Leaf.defaultGreatest) source
        some (.int drawn.1, drawn.2) := by
  rw [ruleValue, hkind]
  rfl

/-- Whatever the bounds of a rule are, it gives an integer between the integers next to them; if
there is none, it is the one below the lower bound. The range that words are drawn from is not
empty, and the range of all integers takes a word as it is. -/
theorem fieldValue_integer (index : Index) (enter : Enter σ) (guard : Guard) (source : σ)
    (hrule : options.find? field.name = some (.rule rule)) (hkind : rule.kind = .integer)
    (hplain : rule.override = none) :
    let first := Leaf.boundValue rule.least 0
    let second := Leaf.boundValue rule.greatest 1000
    let low := Leaf.clampInt64 ⌈min first second⌉
    let high := Leaf.clampInt64 ⌊max first second⌋
    ∃ (draw : Draw σ Int64) (value : Int64) (rest : σ),
      Leaf.integer? (rule.least.getD Leaf.defaultLeast) (rule.greatest.getD Leaf.defaultGreatest)
          = some draw
        ∧ draw source = (value, rest)
        ∧ fieldValue index enter options guard field source = some (.int value, rest)
        ∧ (low ≤ high → low ≤ value.toInt ∧ value.toInt ≤ high)
        ∧ (high < low → value.toInt = ⌊min first second⌋)
        ∧ (low = Int64.minValue.toInt → high = Int64.maxValue.toInt →
          draw = UInt64.toInt64 <$> (WordSource.next64 : Draw σ UInt64)) := by
  intro first second low high
  obtain ⟨hlow, hhigh⟩ := Leaf.clampInt64_orderedBounds rule.least rule.greatest
  obtain ⟨hinside, hbelow⟩ := Leaf.integer_between rule.least rule.greatest source
  have hvalue := ruleValue_integer index enter field.type source hkind
  rw [← fieldValue_of_rule index enter guard hrule hplain] at hvalue
  refine ⟨_, _, _, Leaf.integer?_eq _ _, rfl, hvalue, hinside, hbelow, ?_⟩
  intro hmin hmax
  exact Leaf.integer_eq_next64 (hlow.trans hmin) (hhigh.trans hmax)

/-- Reversed bounds that are far outside the range of sixty-four bits. -/
theorem fieldValue_integer_all :
    let rule : FieldRule := ⟨.integer, some (Binary64.ofInt (10 ^ 22)),
      some (Binary64.ofInt (-10 ^ 22)), none, none, none, none⟩
    let options : Options := ⟨[("age", .rule rule)]⟩
    let field : Field := ⟨"age", .primitive .number, false⟩
    let index := Index.ofList []
    let source := WordCycle.ofList [0x8000000000000000]
    options.find? field.name = some (.rule rule) ∧ rule.kind = .integer ∧ rule.override = none
      ∧ ∃ rest, fieldValue index (declared index 0) options .start field source
          = some (.int Int64.minValue, rest) := by
  intro rule options field index source
  have hrule : options.find? field.name = some (.rule rule) := rfl
  obtain ⟨draw, value, rest, -, hdraw, hvalue, -, -, hall⟩ :=
    fieldValue_integer index (declared index 0) .start source hrule rfl rfl
  obtain ⟨hlow, hhigh⟩ := Leaf.clampInt64_orderedBounds rule.least rule.greatest
  have hbounds : Leaf.orderedBounds (Binary64.ofInt (10 ^ 22)) (Binary64.ofInt (-10 ^ 22))
      = (Binary64.ofInt (-10 ^ 22), Binary64.ofInt (10 ^ 22)) := by rfl
  have hceiling : Leaf.clampInt64 (Binary64.ceiling (Binary64.ofInt (-10 ^ 22)))
      = Int64.minValue.toInt := by rfl
  have hfloor : Leaf.clampInt64 (Binary64.floor (Binary64.ofInt (10 ^ 22)))
      = Int64.maxValue.toInt := by rfl
  dsimp only [rule, Option.getD_some] at hlow hhigh
  rw [hbounds] at hlow hhigh
  have hwords := hall (hlow.symm.trans hceiling) (hhigh.symm.trans hfloor)
  rw [hwords] at hdraw
  cases hdraw
  exact ⟨hrule, rfl, rfl, _, hvalue⟩

/-! ## A bound alone -/

/-- One of the two bounds of a rule. -/
inductive Side where
  | least
  | greatest

/-- The number is on the right side of the bound. -/
def Side.Keeps (bound number : Int) : Side → Prop
  | .least => bound ≤ number
  | .greatest => number ≤ bound

/-- The rule has the bound, and not the other one. -/
def HasOnly (rule : FieldRule) (bound : Float) : Side → Prop
  | .least => rule.least = some bound ∧ rule.greatest = none
  | .greatest => rule.least = none ∧ rule.greatest = some bound

/-- What the other bound of a text or an integer counts as. -/
def missing? : RuleKind → Side → Option Nat
  | .string, .least => some 10
  | .string, .greatest => some 1
  | .integer, .least => some 1000
  | .integer, .greatest => some 0
  | _, _ => none

/-- What the bounds of a text or an integer are about. -/
def extent? : RuleKind → Sample → Option Int
  | .string, .string text => some text.length
  | .integer, .int value => some value.toInt
  | _, _ => none

variable {side : Side} {bound : Float} {limit missing : Nat}

/-- A bound that is a small whole number. -/
theorem lengthBound_of_value (hfinite : bound.isFinite = true)
    (hvalue : Binary64.value bound = limit) (hlimit : limit < 2 ^ 32) (default_ : Nat) :
    lengthBound (some bound) default_ = limit := by
  have hround := lengthBound_of_isFinite hfinite default_
  have hhalf : ⌊(limit : ℚ) + 1 / 2⌋ = limit := by
    rw [Int.floor_natCast_add]
    norm_num
  rw [hvalue, hhalf] at hround
  simp only [UInt64.size] at hround
  omega

/-- The bounds of a text whose rule has one of them. -/
theorem lengthBound_of_hasOnly (honly : HasOnly rule bound side) (hfinite : bound.isFinite = true)
    (hvalue : Binary64.value bound = limit) (hlimit : limit < 2 ^ 32)
    (hmissing : missing? .string side = some missing) :
    min (lengthBound rule.least 1) (lengthBound rule.greatest 10) = min limit missing
      ∧ max (lengthBound rule.least 1) (lengthBound rule.greatest 10) = max limit missing := by
  cases side with
  | least =>
      cases hmissing
      rw [honly.1, honly.2, lengthBound_of_value hfinite hvalue hlimit]
      exact ⟨rfl, rfl⟩
  | greatest =>
      cases hmissing
      rw [honly.1, honly.2, lengthBound_of_value hfinite hvalue hlimit]
      exact ⟨min_comm _ _, max_comm _ _⟩

/-- The bounds of an integer whose rule has one of them. -/
theorem boundValue_of_hasOnly (honly : HasOnly rule bound side) (hfinite : bound.isFinite = true)
    (hvalue : Binary64.value bound = limit) (hmissing : missing? .integer side = some missing) :
    min (Leaf.boundValue rule.least 0) (Leaf.boundValue rule.greatest 1000)
        = ((min limit missing : Nat) : ℚ)
      ∧ max (Leaf.boundValue rule.least 0) (Leaf.boundValue rule.greatest 1000)
        = ((max limit missing : Nat) : ℚ) := by
  have hbound : ∀ default_, Leaf.boundValue (some bound) default_ = limit := by
    intro default_
    rw [Leaf.boundValue, if_pos hfinite, hvalue]
  rw [Nat.cast_min, Nat.cast_max]
  cases side with
  | least =>
      cases hmissing
      rw [honly.1, honly.2, hbound]
      exact ⟨rfl, rfl⟩
  | greatest =>
      cases hmissing
      rw [honly.1, honly.2, hbound]
      exact ⟨min_comm _ _, max_comm _ _⟩

/-- A text or an integer whose rule has one bound is between that bound and what counts as the
other one. -/
theorem ruleValue_between (index : Index) (enter : Enter σ) (type : TypeRef) (source : σ)
    (honly : HasOnly rule bound side) (hfinite : bound.isFinite = true)
    (hvalue : Binary64.value bound = limit) (hlimit : limit < 2 ^ 32)
    (hmissing : missing? rule.kind side = some missing) :
    ∃ value rest extent, ruleValue index enter rule type source = some (value, rest)
      ∧ extent? rule.kind value = some extent
      ∧ min (limit : Int) missing ≤ extent ∧ extent ≤ max (limit : Int) missing := by
  cases hkind : rule.kind with
  | string =>
      rw [hkind] at hmissing
      obtain ⟨hmin, hmax⟩ := lengthBound_of_hasOnly honly hfinite hvalue hlimit hmissing
      have hsmall : missing ≤ 10 := by cases side <;> cases hmissing <;> decide
      have hroom : max (lengthBound rule.least 1) (lengthBound rule.greatest 10)
          ≤ Leaf.room (rule.alphabet.getD .mixed) := by
        have := Leaf.le_room (rule.alphabet.getD .mixed)
        omega
      obtain ⟨hleast, hgreatest, -⟩ := Leaf.text_isOf hroom source
      rw [hmin] at hleast
      rw [hmax] at hgreatest
      exact ⟨_, _, _, ruleValue_string index enter type source hkind, rfl, by omega, by omega⟩
  | integer =>
      rw [hkind] at hmissing
      obtain ⟨hmin, hmax⟩ := boundValue_of_hasOnly honly hfinite hvalue hmissing
      have hsmall : missing ≤ 1000 := by cases side <;> cases hmissing <;> decide
      obtain ⟨hleast, hgreatest⟩ := Leaf.integer_between_natCast hmin hmax (by omega) source
      have hinteger := ruleValue_integer index enter type source hkind
      exact ⟨_, _, _, hinteger, rfl, by omega, by omega⟩
  | float => rw [hkind] at hmissing; cases side <;> cases hmissing
  | array => rw [hkind] at hmissing; cases side <;> cases hmissing

/-- A rule keeps a bound that it has alone if what counts as the other one is on the same side. In
any case the text or the integer is between the two. -/
theorem fieldValue_loneBound (index : Index) (enter : Enter σ) (guard : Guard) (source : σ)
    (hrule : options.find? field.name = some (.rule rule)) (hplain : rule.override = none)
    (honly : HasOnly rule bound side) (hfinite : bound.isFinite = true)
    (hvalue : Binary64.value bound = limit) (hlimit : limit < 2 ^ 32)
    (hmissing : missing? rule.kind side = some missing) :
    ∃ value rest extent,
      fieldValue index enter options guard field source = some (value, rest)
        ∧ extent? rule.kind value = some extent
        ∧ min (limit : Int) missing ≤ extent ∧ extent ≤ max (limit : Int) missing
        ∧ (side.Keeps limit missing → side.Keeps limit extent) := by
  obtain ⟨value, rest, extent, hresult, hextent, hleast, hgreatest⟩ :=
    ruleValue_between index enter field.type source honly hfinite hvalue hlimit hmissing
  rw [← fieldValue_of_rule index enter guard hrule hplain] at hresult
  refine ⟨value, rest, extent, hresult, hextent, hleast, hgreatest, fun hkeeps => ?_⟩
  cases side with
  | least => exact min_eq_left hkeeps ▸ hleast
  | greatest => exact max_eq_left hkeeps ▸ hgreatest

/-- At least three characters. -/
theorem fieldValue_loneBound_three :
    let bound := Binary64.ofInt 3
    let rule : FieldRule := ⟨.string, some bound, none, none, some .latin, none, none⟩
    let options : Options := ⟨[("name", .rule rule)]⟩
    let field : Field := ⟨"name", .primitive .string, false⟩
    let index := Index.ofList []
    let source := WordCycle.ofList [0]
    options.find? field.name = some (.rule rule) ∧ rule.override = none
      ∧ HasOnly rule bound .least ∧ bound.isFinite = true ∧ Binary64.value bound = (3 : Nat)
      ∧ missing? rule.kind .least = some 10
      ∧ ∃ value rest extent, fieldValue index (declared index 0) options .start field source
          = some (value, rest) ∧ extent? .string value = some extent ∧ 3 ≤ extent := by
  intro bound rule options field index source
  have hrule : options.find? field.name = some (.rule rule) := rfl
  have honly : HasOnly rule bound .least := ⟨rfl, rfl⟩
  have hfinite : bound.isFinite = true := Binary64.isFinite_ofInt (by decide)
  have hvalue : Binary64.value bound = (3 : Nat) := Binary64.value_ofInt (by decide)
  have hmissing : missing? rule.kind .least = some 10 := rfl
  obtain ⟨value, rest, extent, hresult, hextent, -, -, hkeeps⟩ :=
    fieldValue_loneBound index (declared index 0) .start source hrule rfl honly hfinite hvalue
      (by decide) hmissing
  have hthree : (3 : Int) ≤ extent := hkeeps (by decide : (3 : Int) ≤ 10)
  exact ⟨hrule, rfl, honly, hfinite, hvalue, hmissing, value, rest, extent,
    hresult, hextent, hthree⟩

/-- Three bounds that are not kept: a text is too short, another one too long, and an integer too
small. -/
theorem fieldValue_loneBound_swapped :
    let extent (rule : FieldRule) (word : UInt64) : Option Int :=
      (fieldValue (Index.ofList []) (declared (Index.ofList []) 0) ⟨[("x", .rule rule)]⟩ .start
        ⟨"x", .primitive .string, false⟩ (WordCycle.ofList [word])).bind
          fun result => extent? rule.kind result.1
    let atLeast (kind : RuleKind) (bound : Int) : FieldRule :=
      ⟨kind, some (Binary64.ofInt bound), none, none, some .latin, none, none⟩
    let atMost (kind : RuleKind) (bound : Int) : FieldRule :=
      ⟨kind, none, some (Binary64.ofInt bound), none, some .latin, none, none⟩
    (extent (atLeast .string 20) 0 = some 10 ∧ ¬Side.Keeps 20 10 .least)
      ∧ (extent (atMost .string 0) 0xFFFFFFFF = some 1 ∧ ¬Side.Keeps 0 1 .greatest)
      ∧ (extent (atLeast .integer 5000) 0 = some 1000 ∧ ¬Side.Keeps 5000 1000 .least) := by
  refine ⟨⟨rfl, ?_⟩, ⟨by decide +kernel, ?_⟩, rfl, ?_⟩ <;>
    simp [Side.Keeps]

end Fields

end Generation

end Specimen
