import Specimen.Proofs.Sample.Insertion

/-!
# Looking up what was inserted

Insertion tells keys apart by `sameScalar`, but `mapValue?` looks for a key that is equal. Equal
scalars are the same, so an insertion changes nothing that is found under other keys
(`mapValue?_insertEntry_of_not_same`). The converse fails for numbers: an integer is the same as a
double without being equal to it, and NaN is not equal to itself. A value that was put in under such
a key is not found (`mapValue?_insertEntry_self`).
-/

namespace Specimen.Sample

/-- The sample is a double that is not a number. -/
def isNaN : Sample → Bool
  | .float value => value.isNaN
  | _ => false

/-- One of the samples is an integer and the other a double. -/
def differInKind : Sample → Sample → Bool
  | .int _, .float _ => true
  | .float _, .int _ => true
  | _, _ => false

/-! ## The two equalities of keys -/

theorem beq_eq_eq (a b : Sample) : (a == b) = eq a b :=
  rfl

/-- Equal scalars are the same. -/
theorem sameScalar_of_beq {a b : Sample} (hscalar : a.isComposite = false) (h : (a == b) = true) :
    sameScalar a b = true := by
  rw [beq_eq_eq] at h
  cases a <;> cases b <;> simp_all [eq, sameScalar, sameNumber, isComposite]

/-- A scalar is equal to scalars only. -/
theorem isComposite_of_beq {a b : Sample} (h : (a == b) = true) :
    b.isComposite = a.isComposite := by
  rw [beq_eq_eq] at h
  cases a <;> cases b <;> first | rfl | simp [eq] at h

/-- What is the same as one of two equal scalars is the same as the other. -/
theorem sameScalar_congr_of_beq {a b c : Sample} (hscalar : b.isComposite = false)
    (h : (b == c) = true) : sameScalar a b = sameScalar a c := by
  rw [beq_eq_eq] at h
  cases b <;> cases c <;> simp_all [eq, isComposite]
  case float.float x y =>
    have hsame : sameNumber x y = true := by simp [sameNumber, h]
    have hcongr : ∀ z, sameNumber z x = sameNumber z y := by
      intro z
      rw [Bool.eq_iff_iff]
      exact ⟨fun hx => sameNumber_trans hx hsame,
        fun hy => sameNumber_trans hy (sameNumber_comm x y ▸ hsame)⟩
    cases a <;> simp [sameScalar, hcongr]

/-- Samples that are the same are equal unless they are NaN or of two kinds. -/
theorem beq_of_sameScalar {a b : Sample} (h : sameScalar a b = true) :
    (a == b) = !(b.isNaN || differInKind a b) := by
  rw [beq_eq_eq]
  cases a <;> cases b <;> simp_all [eq, sameScalar, isNaN, differInKind]
  case float.float x y =>
    by_cases hnan : y = Float.nan
    · simp [hnan]
    · simpa [sameNumber, hnan] using h

/-- A scalar is equal to itself unless it is NaN. -/
theorem beq_self_of_scalar {a : Sample} (hscalar : a.isComposite = false) :
    (a == a) = !a.isNaN := by
  rw [beq_eq_eq]
  cases a <;> simp_all [eq, isNaN, isComposite]
  case float x => cases hx : x == x <;> simp_all

/-! ## Lookup after an insertion -/

section Lookup

variable {key value : Sample} {entries : List (Sample × Sample)}

theorem mapValue?_cons (other kept key : Sample) (rest : List (Sample × Sample)) :
    mapValue? (.map ((other, kept) :: rest)) key
      = if (other == key) = true then some kept else mapValue? (.map rest) key := by
  simp only [mapValue?, map?, Option.bind_some, List.find?_cons]
  cases other == key <;> rfl

theorem mapValue?_eq_none (h : ∀ entry ∈ entries, (entry.1 == key) = false) :
    mapValue? (.map entries) key = none := by
  induction entries with
  | nil => rfl
  | cons first rest ih =>
      obtain ⟨hfirst, hrest⟩ := List.forall_mem_cons.mp h
      rw [mapValue?_cons, if_neg (Bool.eq_false_iff.mp hfirst), ih hrest]

/-- An insertion under a scalar changes nothing for keys that are not the same. -/
theorem mapValue?_insertEntry_of_not_same (hkey : key.isComposite = false) {other : Sample}
    (h : sameScalar other key = false) :
    mapValue? (.map (insertEntry key value entries)) other = mapValue? (.map entries) other := by
  -- a key that is the same as the inserted one is not equal to the one that is looked for
  have hpassed : ∀ present, sameScalar present key = true → ¬(present == other) = true := by
    intro present hsame hequal
    have hscalar : present.isComposite = false := by
      cases hcomposite : present.isComposite with
      | false => rfl
      | true => simp [sameScalar_comm present, sameScalar_of_isComposite hcomposite] at hsame
    rw [sameScalar_comm, sameScalar_congr_of_beq hscalar hequal, sameScalar_comm, h] at hsame
    cases hsame
  induction entries with
  | nil =>
      have hother : ¬(key == other) = true := fun hequal =>
        hpassed key (sameScalar_refl hkey) hequal
      rw [insertEntry, mapValue?_cons, if_neg hother]
  | cons first rest ih =>
      obtain ⟨present, kept⟩ := first
      rw [insertEntry]
      split
      · rename_i hsame
        rw [mapValue?_cons, mapValue?_cons, if_neg (hpassed present hsame),
          if_neg (hpassed present hsame)]
      · rw [mapValue?_cons, mapValue?_cons, ih]

/-- One of the keys is the same number, but of the other kind. -/
def hasOtherKind (key : Sample) (entries : List (Sample × Sample)) : Bool :=
  entries.any fun entry => sameScalar entry.1 key && differInKind entry.1 key

/-- Behind a key that is the same, a scalar is neither found nor the same once more. -/
theorem mapValue?_cons_of_same {present : Sample} (hkey : key.isComposite = false)
    (hsame : sameScalar present key = true)
    (hapart : ∀ entry ∈ entries, sameScalar present entry.1 = false) :
    mapValue? (.map ((present, value) :: entries)) key
      = if (key.isNaN || hasOtherKind key ((present, value) :: entries)) = true then none
        else some value := by
  have hfound := beq_of_sameScalar hsame
  rw [mapValue?_cons]
  by_cases hequal : (present == key) = true
  · have hscalar : present.isComposite = false := isComposite_of_beq hequal ▸ hkey
    have hnone : hasOtherKind key entries = false := by
      unfold hasOtherKind
      rw [List.any_eq_false]
      intro entry hentry
      rw [← sameScalar_congr_of_beq hscalar hequal, sameScalar_comm, hapart entry hentry]
      exact Bool.false_ne_true
    rw [hequal, eq_comm, Bool.not_eq_true', Bool.or_eq_false_iff] at hfound
    rw [if_pos hequal, if_neg]
    rw [hasOtherKind, List.any_cons, ← hasOtherKind, hnone, hfound.1, hfound.2]
    simp
  · have hlater : ∀ entry ∈ entries, (entry.1 == key) = false := by
      intro entry hentry
      rw [Bool.eq_false_iff]
      intro hagain
      have hscalar : entry.1.isComposite = false := isComposite_of_beq hagain ▸ hkey
      rw [← sameScalar_congr_of_beq hscalar hagain, hapart entry hentry] at hsame
      cases hsame
    rw [Bool.eq_false_iff.mpr hequal, eq_comm, Bool.not_eq_false', Bool.or_eq_true] at hfound
    rw [if_neg hequal, mapValue?_eq_none hlater, if_pos]
    rcases hfound with hnan | hkind
    · rw [hnan, Bool.true_or]
    · rw [hasOtherKind, List.any_cons, hsame, hkind]
      simp

/-- What is found under a scalar right after an insertion under it: nothing if the key is NaN, or if
the map has it already as a number of the other kind. -/
theorem mapValue?_insertEntry_self (hkey : key.isComposite = false)
    (hapart : (entries.map Prod.fst).Pairwise fun earlier later =>
      sameScalar earlier later = false) :
    mapValue? (.map (insertEntry key value entries)) key
      = if (key.isNaN || hasOtherKind key entries) = true then none else some value := by
  induction entries with
  | nil =>
      rw [insertEntry, mapValue?_cons, beq_self_of_scalar hkey]
      cases key.isNaN <;> rfl
  | cons first rest ih =>
      obtain ⟨present, kept⟩ := first
      obtain ⟨hfirst, hrest⟩ := List.pairwise_cons.mp hapart
      rw [insertEntry]
      split
      · rename_i hsame
        exact mapValue?_cons_of_same hkey hsame fun entry hentry =>
          hfirst entry.1 (List.mem_map_of_mem hentry)
      · rename_i hother
        have hpassed : ¬(present == key) = true := by
          intro hequal
          have hscalar : present.isComposite = false := isComposite_of_beq hequal ▸ hkey
          exact hother (sameScalar_of_beq hscalar hequal)
        have hkind : hasOtherKind key ((present, kept) :: rest) = hasOtherKind key rest := by
          simp [hasOtherKind, hother]
        rw [mapValue?_cons, if_neg hpassed, ih hrest, hkind]

end Lookup

/-! ## Maps that were built by insertions -/

/-- In a map that was built by insertions, an insertion under a scalar is seen under that key,
unless the key is NaN or the map has it already as a number of the other kind. It is not seen
under any other key. -/
theorem mapValue?_insertEntry (pairs : List (Sample × Sample)) {key : Sample}
    (hkey : key.isComposite = false) (value : Sample) :
    mapValue? (.map (insertEntry key value (ofPairs pairs))) key
        = (if (key.isNaN || hasOtherKind key (ofPairs pairs)) = true then none else some value)
      ∧ ∀ other, sameScalar other key = false →
        mapValue? (.map (insertEntry key value (ofPairs pairs))) other
          = mapValue? (.map (ofPairs pairs)) other := by
  have hapart := (collected_distinct (pairs.map Prod.fst)).apart
  rw [← keys_ofPairs] at hapart
  exact ⟨mapValue?_insertEntry_self hkey hapart,
    fun _ hother => mapValue?_insertEntry_of_not_same hkey hother⟩

/-- The double takes the place of its own earlier value, and the integer keeps its value. -/
theorem mapValue?_insertEntry_half :
    (Sample.float 0.5).isComposite = false
      ∧ mapValue? (.map (insertEntry (.float 0.5) .null
          (ofPairs [(.int 2, .bool true), (.float 0.5, .string "half")]))) (.float 0.5) = some .null
      ∧ mapValue? (.map (insertEntry (.float 0.5) .null
          (ofPairs [(.int 2, .bool true), (.float 0.5, .string "half")]))) (.int 2)
        = some (.bool true) := by
  have hscalar : (Sample.float 0.5).isComposite = false := rfl
  obtain ⟨hself, hothers⟩ := mapValue?_insertEntry
    [(.int 2, .bool true), (.float 0.5, .string "half")] hscalar .null
  exact ⟨hscalar, hself.trans rfl, (hothers (.int 2) rfl).trans rfl⟩

/-- A value is lost under a number that the map has as the other kind, and under NaN: it is in the
map, but lookup passes it. -/
theorem mapValue?_insertEntry_passed :
    mapValue? (.map (insertEntry (.float 2) (.string "b") (ofPairs [(.int 2, .string "a")])))
        (.float 2) = none
      ∧ mapValue? (.map (insertEntry (.float Float.nan) (.string "a") (ofPairs [])))
        (.float Float.nan) = none := by
  constructor <;> rfl

end Specimen.Sample
