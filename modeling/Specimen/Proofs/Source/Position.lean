import Mathlib.Data.List.DropRight
import Specimen.Source.Position

/-!
# Places and offsets

A place in a document is found by going through the characters before it. Every character takes
one to a later place (`Position.precedes_advance`): to the right on the same line, or to the start
of the next line. So of two different offsets at which the document can be cut the smaller one has
the earlier place, however many bytes the characters in between have, and a place belongs to one
offset only. The line counts the line breaks before the offset, the column the characters behind
the last of them. Main statement: `Position.ofOffset_faithful`.
-/

namespace Specimen.Source

/-- The document can be cut at the offset: it is the end, or a character starts there. -/
def IsBoundary (text : List Char) (offset : Nat) : Prop :=
  (splitAtByte? offset text).isSome

namespace Position

/-- One place comes before another one: on an earlier line, or further left on the same line. -/
def Precedes (p q : Position) : Prop :=
  p.line < q.line ∨ p.line = q.line ∧ p.column < q.column

theorem Precedes.trans {p q r : Position} (h : p.Precedes q) (hnext : q.Precedes r) :
    p.Precedes r := by
  unfold Precedes at *
  omega

theorem Precedes.ne {p q : Position} (h : p.Precedes q) : p ≠ q := by
  rintro rfl
  unfold Precedes at h
  omega

/-! ## Going through characters -/

/-- The place behind a run of characters. -/
def through (position : Position) (run : List Char) : Position :=
  run.foldl advance position

theorem through_append (position : Position) (run more : List Char) :
    position.through (run ++ more) = (position.through run).through more :=
  List.foldl_append

/-- A character takes one to a later place. -/
theorem precedes_advance (position : Position) (c : Char) :
    position.Precedes (position.advance c) := by
  unfold Precedes advance
  split
  · exact .inl (Nat.lt_succ_self _)
  · exact .inr ⟨rfl, Nat.lt_succ_self _⟩

/-- So does a run of characters. -/
theorem precedes_through (position : Position) {run : List Char} (hrun : run ≠ []) :
    position.Precedes (position.through run) := by
  induction run generalizing position with
  | nil => exact absurd rfl hrun
  | cons c run ih =>
      have hfirst := position.precedes_advance c
      cases run with
      | nil => exact hfirst
      | cons d run => exact hfirst.trans (ih (position.advance c) (List.cons_ne_nil d run))

/-- The place of an offset is the one behind the characters before it. -/
theorem after_append (position : Position) (before behind : List Char) :
    position.after (before ++ behind) (byteSize before) = position.through before := by
  induction before generalizing position with
  | nil =>
      cases behind with
      | nil => rfl
      | cons c behind =>
          rw [List.nil_append, after, byteSize, if_pos c.utf8Size_pos]
          rfl
  | cons c before ih =>
      rw [List.cons_append, after, byteSize, if_neg (by omega), Nat.add_sub_cancel_left]
      exact ih (position.advance c)

/-- Lines are counted by line breaks, columns by the characters behind the last line break. -/
theorem through_start (run : List Char) :
    start.through run
      = ⟨run.count '\n' + 1, (run.rtakeWhile (· != '\n')).length + 1⟩ := by
  induction run using List.reverseRecOn with
  | nil => rfl
  | append_singleton run c ih =>
      rw [through_append, ih]
      by_cases hbreak : c = '\n'
      · subst hbreak
        rw [List.rtakeWhile_concat_neg _ _ _ (by simp)]
        simp [through, advance]
      · rw [List.rtakeWhile_concat_pos _ _ _ (by simpa using hbreak)]
        simp [through, advance, hbreak]

/-! ## Offsets -/

theorem ofOffset_append (before behind : List Char) :
    ofOffset (before ++ behind) (byteSize before) = start.through before :=
  after_append start before behind

/-- Of two fronts of a text the one with fewer bytes is a proper front of the other one. -/
theorem exists_append_of_byteSize_lt {front front' back back' : List Char}
    (h : front ++ back = front' ++ back') (hsize : byteSize front < byteSize front') :
    ∃ run, run ≠ [] ∧ front' = front ++ run := by
  rcases List.append_eq_append_iff.mp h with ⟨run, rfl, -⟩ | ⟨run, rfl, -⟩
  · refine ⟨run, ?_, rfl⟩
    rintro rfl
    simp at hsize
  · rw [byteSize_append] at hsize
    omega

end Position

theorem IsBoundary.exists_front {text : List Char} {offset : Nat} (h : IsBoundary text offset) :
    ∃ before behind, before ++ behind = text ∧ byteSize before = offset := by
  obtain ⟨⟨before, behind⟩, hsplit⟩ := Option.isSome_iff_exists.mp h
  exact ⟨before, behind, splitAtByte?_eq_some_iff.mp hsplit⟩

/-- A smaller offset has an earlier place. -/
theorem IsBoundary.precedes {text : List Char} {a b : Nat} (ha : IsBoundary text a)
    (hb : IsBoundary text b) (hlt : a < b) :
    (Position.ofOffset text a).Precedes (Position.ofOffset text b) := by
  obtain ⟨before, behind, rfl, rfl⟩ := ha.exists_front
  obtain ⟨before', behind', htext, rfl⟩ := hb.exists_front
  obtain ⟨run, hrun, rfl⟩ := Position.exists_append_of_byteSize_lt htext.symm hlt
  rw [Position.ofOffset_append, ← htext, Position.ofOffset_append, Position.through_append]
  exact Position.precedes_through _ hrun

namespace Position

/-- At every offset at which the document can be cut, the line is one more than the number of line
breaks before it, and the column is one more than the number of characters behind the last of them;
different offsets have places in the same order, so that a place belongs to one offset only. -/
theorem ofOffset_faithful (text : List Char) :
    (∀ offset before behind, splitAtByte? offset text = some (before, behind) →
      ofOffset text offset
        = ⟨before.count '\n' + 1, (before.rtakeWhile (· != '\n')).length + 1⟩)
    ∧ (∀ a b, IsBoundary text a → IsBoundary text b → a < b →
        (ofOffset text a).Precedes (ofOffset text b))
    ∧ ∀ a b, IsBoundary text a → IsBoundary text b → ofOffset text a = ofOffset text b → a = b := by
  refine ⟨?_, fun a b ha hb hlt => ha.precedes hb hlt, ?_⟩
  · intro offset before behind hsplit
    obtain ⟨rfl, rfl⟩ := splitAtByte?_eq_some_iff.mp hsplit
    rw [ofOffset_append, through_start]
  · intro a b ha hb hsame
    rcases Nat.lt_trichotomy a b with hlt | heq | hlt
    · exact absurd hsame (ha.precedes hb hlt).ne
    · exact heq
    · exact absurd hsame.symm (hb.precedes ha hlt).ne

/-- The four bytes of one character are one column, and the line break ends its line. -/
theorem ofOffset_faithful_wide :
    let text := ['a', '😀', '\n', 'b']
    IsBoundary text 5 ∧ IsBoundary text 6
      ∧ ofOffset text 5 = ⟨1, 3⟩ ∧ ofOffset text 6 = ⟨2, 1⟩
      ∧ (ofOffset text 5).Precedes (ofOffset text 6) := by
  intro text
  obtain ⟨hplace, hprecedes, -⟩ := ofOffset_faithful text
  have hbreak : splitAtByte? 5 text = some (['a', '😀'], ['\n', 'b']) := by decide
  have hnext : splitAtByte? 6 text = some (['a', '😀', '\n'], ['b']) := by decide
  have ha : IsBoundary text 5 := by rw [IsBoundary, hbreak]; rfl
  have hb : IsBoundary text 6 := by rw [IsBoundary, hnext]; rfl
  exact ⟨ha, hb, hplace 5 _ _ hbreak, hplace 6 _ _ hnext, hprecedes 5 6 ha hb (by decide)⟩

end Position

end Specimen.Source
