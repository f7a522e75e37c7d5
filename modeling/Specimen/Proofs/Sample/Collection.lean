import Specimen.Proofs.Entries
import Specimen.Sample.Collection

/-!
# What insertion keeps apart

The keys of a map grow like the members of a set (`keys_insertEntry`), and the names of an object
like the distinct names of a list (`names_set`). `Collected` is what is known about the members of
a set after a number of insertions.
-/

namespace Specimen

/-- One more item is kept at the end, unless an earlier one is related to it. -/
theorem eraseDupsBy_concat {α : Type} (related : α → α → Bool) (items : List α) (item : α) :
    (items ++ [item]).eraseDupsBy related
      = if (items.eraseDupsBy related).any (related item) then items.eraseDupsBy related
        else items.eraseDupsBy related ++ [item] := by
  suffices hloop : ∀ kept, List.eraseDupsBy.loop related (items ++ [item]) kept
      = if (List.eraseDupsBy.loop related items kept).any (related item)
        then List.eraseDupsBy.loop related items kept
        else List.eraseDupsBy.loop related items kept ++ [item] from hloop []
  intro kept
  induction items generalizing kept with
  | nil =>
      simp only [List.nil_append, List.eraseDupsBy.loop, List.any_reverse]
      cases kept.any (related item) <;> simp
  | cons first rest ih =>
      simp only [List.cons_append, List.eraseDupsBy.loop]
      by_cases hany : kept.any (related first)
      · simp only [hany]
        exact ih kept
      · simp only [hany]
        exact ih (first :: kept)

namespace Entries

variable {α : Type}

/-- Setting names one after the other leaves the distinct ones, in order. -/
theorem names_set_of_eraseDups {name : String} {before : List String} (value : α)
    {entries : List (String × α)} (h : names entries = before.eraseDups) :
    names (set name value entries) = (before ++ [name]).eraseDups := by
  rw [names_set, h, List.eraseDups, List.eraseDups, eraseDupsBy_concat]
  simp

end Entries

namespace Sample

/-- Kept apart by `sameScalar`, in order. -/
def distinct (samples : List Sample) : List Sample :=
  samples.eraseDupsBy fun later earlier => sameScalar earlier later

theorem distinct_concat (samples : List Sample) (sample : Sample) :
    distinct (samples ++ [sample]) = insertMember sample (distinct samples) :=
  eraseDupsBy_concat _ samples sample

theorem keys_insertEntry (key value : Sample) (entries : List (Sample × Sample)) :
    (insertEntry key value entries).map Prod.fst = insertMember key (entries.map Prod.fst) := by
  induction entries with
  | nil => rfl
  | cons entry rest ih =>
      obtain ⟨other, kept⟩ := entry
      by_cases hsame : sameScalar other key
      · simp [insertEntry, insertMember, hsame]
      · simp only [insertEntry, hsame, Bool.false_eq_true, if_false, List.map_cons, ih,
          insertMember, List.any_cons, Bool.false_or]
        split <;> rfl

theorem values_insertEntry {fits : Sample → Prop} {key value : Sample}
    {entries : List (Sample × Sample)} (hvalue : fits value)
    (h : ∀ entry ∈ entries, fits entry.2) :
    ∀ entry ∈ insertEntry key value entries, fits entry.2 := by
  induction entries with
  | nil =>
      intro entry hentry
      obtain rfl := List.mem_singleton.mp hentry
      exact hvalue
  | cons first rest ih =>
      obtain ⟨other, kept⟩ := first
      have hrest : ∀ entry ∈ rest, fits entry.2 := fun entry hentry =>
        h entry (List.mem_cons_of_mem _ hentry)
      intro entry hentry
      rw [insertEntry] at hentry
      split at hentry
      · rcases List.mem_cons.mp hentry with rfl | hentry
        · exact hvalue
        · exact hrest entry hentry
      · rcases List.mem_cons.mp hentry with rfl | hentry
        · exact h _ List.mem_cons_self
        · exact ih hrest entry hentry

/-- The members of a set after a number of insertions. -/
structure Collected (fits : Sample → Prop) (count : Nat) (members : List Sample) : Prop where
  apart : members.Pairwise fun earlier later => sameScalar earlier later = false
  bounded : members.length ≤ count
  nonempty : 0 < count → members ≠ []
  fit : ∀ member ∈ members, fits member

namespace Collected

theorem nil (fits : Sample → Prop) : Collected fits 0 [] :=
  ⟨.nil, Nat.le_refl 0, by simp, by simp⟩

theorem insert {fits : Sample → Prop} {count : Nat} {member : Sample} {members : List Sample}
    (h : Collected fits count members) (hmember : fits member) :
    Collected fits (count + 1) (insertMember member members) := by
  unfold insertMember
  split
  · rename_i hsame
    refine ⟨h.apart, by have := h.bounded; omega, ?_, h.fit⟩
    rintro - rfl
    simp at hsame
  · rename_i hother
    simp only [List.any_eq_true, not_exists, not_and, Bool.not_eq_true] at hother
    refine ⟨?_, ?_, by simp, ?_⟩
    · refine List.pairwise_append.mpr ⟨h.apart, List.pairwise_singleton _ _, ?_⟩
      intro earlier hearlier later hlater
      obtain rfl := List.mem_singleton.mp hlater
      exact hother earlier hearlier
    · have := h.bounded
      simpa using this
    · intro other hother
      rcases List.mem_append.mp hother with hother | hother
      · exact h.fit other hother
      · exact List.mem_singleton.mp hother ▸ hmember

end Collected

end Sample

end Specimen
