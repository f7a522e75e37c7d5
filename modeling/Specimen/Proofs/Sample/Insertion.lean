import Specimen.Proofs.Sample.Collection
import Specimen.Proofs.Sample.Same

/-!
# Many insertions

What a set holds after samples have been added to it, and a map after pairs have been put into it,
in order. The members, and the keys, are the distinct ones. Composite samples are all distinct.
Among exact scalars a key of a map has the last value that was put in under it
(`lastValue?_ofPairs`).
-/

namespace Specimen.Sample

/-! ## Members -/

theorem foldl_insertMember (samples : List Sample) :
    samples.foldl (fun members sample => insertMember sample members) [] = distinct samples := by
  induction samples using List.reverseRecOn with
  | nil => rfl
  | append_singleton samples sample ih =>
      rw [List.foldl_append, ih, distinct_concat]
      rfl

/-- The distinct samples are among the samples, and none is the same as an earlier one. -/
theorem collected_distinct (samples : List Sample) :
    Collected (· ∈ samples) samples.length (distinct samples) := by
  induction samples using List.reverseRecOn with
  | nil => exact .nil _
  | append_singleton samples sample ih =>
      have hbefore : Collected (· ∈ samples ++ [sample]) samples.length (distinct samples) :=
        ⟨ih.apart, ih.bounded, ih.nonempty,
          fun member hmember => List.mem_append_left _ (ih.fit member hmember)⟩
      rw [distinct_concat, List.length_append, List.length_singleton]
      exact hbefore.insert (List.mem_append_right _ (List.mem_singleton.mpr rfl))

theorem distinct_of_isComposite {samples : List Sample}
    (h : ∀ sample ∈ samples, sample.isComposite = true) : distinct samples = samples := by
  induction samples using List.reverseRecOn with
  | nil => rfl
  | append_singleton samples sample ih =>
      have hlast : sample.isComposite = true :=
        h sample (List.mem_append_right _ (List.mem_singleton.mpr rfl))
      rw [distinct_concat, ih fun other hother => h other (List.mem_append_left _ hother),
        insertMember, if_neg]
      simp [sameScalar_of_isComposite hlast]

/-! ## Entries -/

/-- The entries of a map after pairs of keys and values have been put in, in order. -/
def ofPairs (pairs : List (Sample × Sample)) : List (Sample × Sample) :=
  pairs.foldl (fun entries pair => insertEntry pair.1 pair.2 entries) []

theorem ofPairs_concat (pairs : List (Sample × Sample)) (pair : Sample × Sample) :
    ofPairs (pairs ++ [pair]) = insertEntry pair.1 pair.2 (ofPairs pairs) := by
  rw [ofPairs, List.foldl_append]
  rfl

theorem keys_ofPairs (pairs : List (Sample × Sample)) :
    (ofPairs pairs).map Prod.fst = distinct (pairs.map Prod.fst) := by
  induction pairs using List.reverseRecOn with
  | nil => rfl
  | append_singleton pairs pair ih =>
      rw [ofPairs_concat, keys_insertEntry, ih, List.map_append, List.map_singleton,
        distinct_concat]

theorem mem_values_of_mem_ofPairs (pairs : List (Sample × Sample)) :
    ∀ entry ∈ ofPairs pairs, entry.2 ∈ pairs.map Prod.snd := by
  induction pairs using List.reverseRecOn with
  | nil => simp [ofPairs]
  | append_singleton pairs pair ih =>
      rw [ofPairs_concat, List.map_append]
      refine @values_insertEntry (· ∈ pairs.map Prod.snd ++ [pair].map Prod.snd)
        pair.1 pair.2 _ ?_ ?_
      · exact List.mem_append_right _ (List.mem_singleton.mpr rfl)
      · exact fun entry hentry => List.mem_append_left _ (ih entry hentry)

/-- A key that is not the same as one of the others is put at the end. -/
theorem insertEntry_eq_append {key value : Sample} {entries : List (Sample × Sample)}
    (h : ∀ entry ∈ entries, sameScalar entry.1 key = false) :
    insertEntry key value entries = entries ++ [(key, value)] := by
  induction entries with
  | nil => rfl
  | cons first rest ih =>
      obtain ⟨hfirst, hrest⟩ := List.forall_mem_cons.mp h
      rw [insertEntry, if_neg (Bool.eq_false_iff.mp hfirst), ih hrest, List.cons_append]

/-- Pairs whose keys are all distinct are the entries. -/
theorem ofPairs_of_apart {pairs : List (Sample × Sample)}
    (h : (pairs.map Prod.fst).Pairwise fun earlier later => sameScalar earlier later = false) :
    ofPairs pairs = pairs := by
  induction pairs using List.reverseRecOn with
  | nil => rfl
  | append_singleton pairs pair ih =>
      rw [List.map_append, List.pairwise_append] at h
      obtain ⟨hpairs, -, hlast⟩ := h
      rw [ofPairs_concat, ih hpairs, insertEntry_eq_append]
      exact fun entry hentry => hlast entry.1 (List.mem_map_of_mem hentry) pair.1
        (List.mem_singleton.mpr rfl)

/-- The value of the last pair whose key is the same. -/
def lastValue? (key : Sample) (pairs : List (Sample × Sample)) : Option Sample :=
  (pairs.reverse.find? fun pair => sameScalar key pair.1).map Prod.snd

theorem mem_of_lastValue? {key value : Sample} {pairs : List (Sample × Sample)}
    (h : lastValue? key pairs = some value) : value ∈ pairs.map Prod.snd := by
  obtain ⟨pair, hpair, rfl⟩ := Option.map_eq_some_iff.mp h
  exact List.mem_map_of_mem (List.mem_reverse.mp (List.mem_of_find?_eq_some hpair))

theorem lastValue?_concat (key : Sample) (pairs : List (Sample × Sample))
    (pair : Sample × Sample) :
    lastValue? key (pairs ++ [pair])
      = if sameScalar key pair.1 = true then some pair.2 else lastValue? key pairs := by
  simp only [lastValue?, List.reverse_append, List.reverse_singleton, List.singleton_append,
    List.find?_cons]
  cases sameScalar key pair.1 <;> simp

/-- An insertion gives its value to the entry with the same key, and leaves all other entries. -/
theorem mem_insertEntry {key value : Sample} {entries : List (Sample × Sample)}
    {entry : Sample × Sample} (hkey : key.isExactScalar = true)
    (hkeys : ∀ entry ∈ entries, entry.1.isExactScalar = true)
    (hapart : (entries.map Prod.fst).Pairwise fun earlier later => sameScalar earlier later = false)
    (h : entry ∈ insertEntry key value entries) :
    (sameScalar entry.1 key = true ∧ entry.2 = value)
      ∨ (sameScalar entry.1 key = false ∧ entry ∈ entries) := by
  induction entries with
  | nil =>
      obtain rfl := List.mem_singleton.mp h
      exact .inl ⟨sameScalar_refl (isComposite_of_isExactScalar hkey), rfl⟩
  | cons first rest ih =>
      obtain ⟨other, kept⟩ := first
      have hother : other.isExactScalar = true := hkeys _ List.mem_cons_self
      obtain ⟨hfirst, hrest⟩ := List.pairwise_cons.mp hapart
      rw [insertEntry] at h
      split at h
      · rename_i hsame
        rcases List.mem_cons.mp h with rfl | h
        · exact .inl ⟨hsame, rfl⟩
        · -- a further entry with the same key would have the key of the first one, too
          refine .inr ⟨Bool.eq_false_iff.mpr fun hagain => ?_, List.mem_cons_of_mem _ h⟩
          have hexact := hkeys entry (List.mem_cons_of_mem _ h)
          rw [sameScalar_comm] at hagain
          have hboth := sameScalar_trans hother hexact hsame hagain
          simp [hfirst entry.1 (List.mem_map_of_mem h)] at hboth
      · rename_i hsame
        rcases List.mem_cons.mp h with rfl | h
        · exact .inr ⟨Bool.eq_false_iff.mpr hsame, List.mem_cons_self⟩
        · have hlater :=
            ih (fun entry hentry => hkeys entry (List.mem_cons_of_mem _ hentry)) hrest h
          exact hlater.imp_right (And.imp_right (List.mem_cons_of_mem _))

/-- Under exact scalars a map has the last values that were put in. -/
theorem lastValue?_ofPairs {pairs : List (Sample × Sample)}
    (h : ∀ pair ∈ pairs, pair.1.isExactScalar = true) :
    ∀ entry ∈ ofPairs pairs, lastValue? entry.1 pairs = some entry.2 := by
  induction pairs using List.reverseRecOn with
  | nil => simp [ofPairs]
  | append_singleton pairs pair ih =>
      have hbefore : ∀ earlier ∈ pairs, earlier.1.isExactScalar = true :=
        fun earlier hearlier => h earlier (List.mem_append_left _ hearlier)
      have hkeys := collected_distinct (pairs.map Prod.fst)
      rw [← keys_ofPairs] at hkeys
      have hexact : ∀ entry ∈ ofPairs pairs, entry.1.isExactScalar = true := by
        intro entry hentry
        obtain ⟨earlier, hearlier, heq⟩ :=
          List.mem_map.mp (hkeys.fit entry.1 (List.mem_map_of_mem hentry))
        exact heq ▸ hbefore earlier hearlier
      intro entry hentry
      rw [ofPairs_concat] at hentry
      have hlast : pair.1.isExactScalar = true :=
        h pair (List.mem_append_right _ (List.mem_singleton.mpr rfl))
      rw [lastValue?_concat]
      rcases mem_insertEntry hlast hexact hkeys.apart hentry with ⟨hsame, hvalue⟩ | ⟨hother, hmem⟩
      · rw [if_pos hsame, hvalue]
      · rw [if_neg (Bool.eq_false_iff.mp hother), ih hbefore entry hmem]

end Specimen.Sample
