import Specimen.Proofs.Sample.Json
import Specimen.Proofs.Sample.Same

/-!
# The names that keys are flattened to

Keys of a map that are told apart by `sameScalar` may get one name when the map is flattened: a
text is its own name, and any other key has its JSON text for a name. Among texts and numbers this
comes about in two ways only, which `TextsApart` excludes: `nodup_keyText_iff`. What the object
holds then is `Flattened`.
-/

namespace Specimen

namespace Sample

/-! ## Texts and numbers -/

/-- A number that is not finite. -/
def isUnbounded : Sample → Bool
  | .float value => !value.isFinite
  | _ => false

/-- A text or a number, as the values of enumerations are. -/
def IsTextOrNumber (key : Sample) : Prop :=
  (∃ text, key = .string text) ∨ key.number?.isSome = true

theorem isTextOrNumber_ofEnumLiteral (value : EnumLiteral) :
    (ofEnumLiteral value).IsTextOrNumber := by
  rcases ofEnumLiteral_cases value with htext | ⟨number, heq⟩ | ⟨number, heq⟩
  · exact .inl htext
  · exact .inr (heq ▸ rfl)
  · exact .inr (heq ▸ rfl)

theorem keyText_of_number {key : Sample} (h : key.number?.isSome = true) :
    keyText key = key.toJson.compact := by
  cases key with
  | string text => cases h
  | _ => rfl

theorem toJson_float {value : Float} (hfinite : value.isFinite = true) :
    (Sample.float value).toJson = .double value := by
  rw [toJson, if_pos hfinite]

theorem toJson_of_isUnbounded {key : Sample} (h : key.isUnbounded = true) : key.toJson = .null := by
  cases key with
  | float value =>
      have hfinite : ¬value.isFinite = true := by simpa [isUnbounded] using h
      rw [toJson, if_neg hfinite]
  | _ => cases h

/-- A number is an integer, a finite double or not finite. -/
theorem number_cases {key : Sample} (h : key.number?.isSome = true) :
    (∃ value, key = .int value) ∨ (∃ value, value.isFinite = true ∧ key = .float value)
      ∨ key.isUnbounded = true := by
  cases key with
  | int value => exact .inl ⟨value, rfl⟩
  | float value =>
      cases hfinite : value.isFinite with
      | true => exact .inr (.inl ⟨value, hfinite, rfl⟩)
      | false => exact .inr (.inr (by rw [isUnbounded, hfinite]; rfl))
  | _ => cases h

theorem keyText_of_isUnbounded {key : Sample} (h : key.isUnbounded = true) :
    keyText key = Json.compact .null := by
  cases key with
  | float value => rw [keyText_of_number rfl, toJson_of_isUnbounded h]
  | _ => cases h

/-- Numbers that are flattened to one tree are the same, unless none of the two is finite. -/
theorem sameScalar_of_toJson {first second : Sample} (hfirst : first.number?.isSome = true)
    (hsecond : second.number?.isSome = true)
    (hbounded : first.isUnbounded = true → second.isUnbounded = false)
    (h : first.toJson = second.toJson) : sameScalar first second = true := by
  rcases number_cases hfirst with ⟨value, rfl⟩ | ⟨value, hfinite, rfl⟩ | hnull
  · rcases number_cases hsecond with ⟨other, rfl⟩ | ⟨other, hfinite, rfl⟩ | hnull
    · exact beq_iff_eq.mpr (Int64.toInt_inj.mp (Json.integer.inj h))
    · rw [toJson_float hfinite] at h
      cases h
    · rw [toJson_of_isUnbounded hnull] at h
      cases h
  · rw [toJson_float hfinite] at h
    rcases number_cases hsecond with ⟨other, rfl⟩ | ⟨other, hfinite', rfl⟩ | hnull
    · cases h
    · rw [toJson_float hfinite'] at h
      obtain rfl := Json.double.inj h
      exact sameNumber_refl value
    · rw [toJson_of_isUnbounded hnull] at h
      cases h
  · have hsecond' := hbounded hnull
    rw [toJson_of_isUnbounded hnull] at h
    rcases number_cases hsecond with ⟨other, rfl⟩ | ⟨other, hfinite, rfl⟩ | hnull'
    · cases h
    · rw [toJson_float hfinite] at h
      cases h
    · rw [hsecond'] at hnull'
      cases hnull'

/-! ## Names apart -/

/-- The keys do not get in each other's way when a map is flattened. -/
structure TextsApart (keys : List Sample) : Prop where
  /-- No text is the JSON text of a number. -/
  texts : ∀ text key, .string text ∈ keys → key ∈ keys → key.number?.isSome = true →
    text ≠ key.toJson.compact
  /-- At most one number is not finite; the JSON text of such a number is `null`. -/
  numbers : keys.Pairwise fun earlier later =>
    earlier.isUnbounded = true → later.isUnbounded = false

/-- Texts and numbers that are told apart have different names exactly if they do not get in each
other's way. -/
theorem nodup_keyText_iff {keys : List Sample} (hkeys : ∀ key ∈ keys, key.IsTextOrNumber)
    (hapart : keys.Pairwise fun earlier later => sameScalar earlier later = false) :
    (keys.map keyText).Nodup ↔ TextsApart keys := by
  constructor
  · intro hnodup
    constructor
    · rintro text key htext hkey hnumber rfl
      have heq := List.inj_on_of_nodup_map hnodup htext hkey (keyText_of_number hnumber).symm
      rw [← heq] at hnumber
      cases hnumber
    · refine (List.pairwise_map.mp hnodup).imp fun hne hearlier => ?_
      refine Bool.eq_false_iff.mpr fun hlater => hne ?_
      rw [keyText_of_isUnbounded hearlier, keyText_of_isUnbounded hlater]
  · rintro ⟨htexts, hnumbers⟩
    refine List.pairwise_map.mpr ((hapart.and hnumbers).imp_of_mem ?_)
    rintro earlier later hearlier hlater ⟨hother, hbounded⟩ heq
    rcases hkeys earlier hearlier with ⟨text, rfl⟩ | hnumber
    · rcases hkeys later hlater with ⟨text', rfl⟩ | hnumber'
      · exact beq_eq_false_iff_ne.mp hother heq
      · exact htexts text later hearlier hlater hnumber' (heq.trans (keyText_of_number hnumber'))
    · rw [keyText_of_number hnumber] at heq
      rcases hkeys later hlater with ⟨text', rfl⟩ | hnumber'
      · exact htexts text' earlier hlater hearlier hnumber heq.symm
      · rw [keyText_of_number hnumber'] at heq
        have htree := Json.compact_injective (keeps_toJson earlier).writable
          (keeps_toJson later).writable heq
        rw [sameScalar_of_toJson hnumber hnumber' hbounded htree] at hother
        cases hother

/-! ## The object -/

/-- All values of a map that are there become values of the object. -/
theorem jsonEntries_of_defined {pairs : List (Sample × Sample)}
    (h : ∀ pair ∈ pairs, pair.2.isUndefined = false) :
    jsonEntries pairs = pairs.map fun pair => (keyText pair.1, pair.2.toJson) := by
  induction pairs with
  | nil => rfl
  | cons pair pairs ih =>
      obtain ⟨hpair, hpairs⟩ := List.forall_mem_cons.mp h
      rw [jsonEntries_cons, if_neg (Bool.eq_false_iff.mp hpair), ih hpairs, List.map_cons]

/-- The object has one name for every key, and under it the value of the key. -/
structure Flattened (pairs : List (Sample × Sample)) (entries : List (String × Json)) : Prop where
  names : (Entries.names entries).Perm (pairs.map fun pair => keyText pair.1)
  distinct : (pairs.map fun pair => keyText pair.1).Nodup
  each : ∀ pair ∈ pairs, Entries.find? (keyText pair.1) entries = some pair.2.toJson

/-- Flattening a map without missing values keeps all its entries if the keys have different
names, and loses some of them if not. -/
theorem exists_toJson_map {pairs : List (Sample × Sample)}
    (h : ∀ pair ∈ pairs, pair.2.isUndefined = false) :
    ∃ entries, (Sample.map pairs).toJson = .object entries
      ∧ ((pairs.map fun pair => keyText pair.1).Nodup → Flattened pairs entries)
      ∧ (¬(pairs.map fun pair => keyText pair.1).Nodup → entries.length < pairs.length) := by
  have hnames : Entries.names (pairs.map fun pair => (keyText pair.1, pair.2.toJson))
      = pairs.map fun pair => keyText pair.1 := by
    rw [Entries.names, List.map_map]
    rfl
  refine ⟨_, by rw [toJson, jsonEntries_of_defined h, Json.ofEntries], fun hnodup => ?_,
    fun hrepeated => ?_⟩
  · have hperm := Entries.perm_sortByName (hnames ▸ hnodup)
    refine ⟨hnames ▸ hperm.map Prod.fst, hnodup, fun pair hpair => ?_⟩
    refine (Entries.find?_eq_some_iff_mem (Entries.ascending_sortByName _).nodup).mpr ?_
    exact hperm.mem_iff.mpr (List.mem_map_of_mem hpair)
  · have hshorter := Entries.length_sortByName_lt (hnames ▸ hrepeated)
    rwa [List.length_map] at hshorter

end Sample

end Specimen
