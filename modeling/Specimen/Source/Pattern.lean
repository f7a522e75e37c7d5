/-!
# Text patterns

Regular patterns over characters. `Pattern.Matches` says which texts a pattern stands for;
`Pattern.longest?` finds the longest text at the front of an input that it stands for. The search
takes one derivative a character: `derive c p` stands for the texts that follow `c` in a text of
`p`. It stops when the derivative is `nothing`, so an input is not read further than it has to be.
-/

namespace Specimen.Source

/-- A set of texts. -/
inductive Pattern where
  /-- No text. -/
  | nothing
  /-- The empty text. -/
  | empty
  /-- One character of a class. -/
  | one (accepts : Char → Bool)
  | seq (first second : Pattern)
  | either (left right : Pattern)
  /-- Any number of texts of a pattern, one after the other. -/
  | many (body : Pattern)

namespace Pattern

/-- The texts that a pattern stands for. -/
inductive Matches : Pattern → List Char → Prop
  | empty : Matches .empty []
  | one {accepts : Char → Bool} {c : Char} (h : accepts c = true) : Matches (.one accepts) [c]
  | seq {p q : Pattern} {s t : List Char} (hp : Matches p s) (hq : Matches q t) :
      Matches (.seq p q) (s ++ t)
  | left {p q : Pattern} {s : List Char} (h : Matches p s) : Matches (.either p q) s
  | right {p q : Pattern} {s : List Char} (h : Matches q s) : Matches (.either p q) s
  | done {p : Pattern} : Matches (.many p) []
  | more {p : Pattern} {s t : List Char} (hp : Matches p s) (hrest : Matches (.many p) t) :
      Matches (.many p) (s ++ t)

/-- The pattern stands for the empty text. -/
def acceptsEmpty : Pattern → Bool
  | .nothing => false
  | .empty => true
  | .one _ => false
  | .seq p q => p.acceptsEmpty && q.acceptsEmpty
  | .either p q => p.acceptsEmpty || q.acceptsEmpty
  | .many _ => true

/-- The pattern is written as `nothing`. -/
def isNothing : Pattern → Bool
  | .nothing => true
  | _ => false

/-- Concatenation, with the trivial cases written out. -/
def join : Pattern → Pattern → Pattern
  | .nothing, _ => .nothing
  | _, .nothing => .nothing
  | .empty, q => q
  | p, .empty => p
  | p, q => .seq p q

/-- Choice, with the trivial cases written out. -/
def choose : Pattern → Pattern → Pattern
  | .nothing, q => q
  | p, .nothing => p
  | p, q => .either p q

/-- The texts that follow the character `c` in a text of the pattern. -/
def derive (c : Char) : Pattern → Pattern
  | .nothing => .nothing
  | .empty => .nothing
  | .one accepts => if accepts c then .empty else .nothing
  | .seq p q =>
      if p.acceptsEmpty then choose (join (derive c p) q) (derive c q) else join (derive c p) q
  | .either p q => choose (derive c p) (derive c q)
  | .many p => join (derive c p) (.many p)

/-- The length of the longest text at the front of an input that the pattern stands for. -/
def longest? (p : Pattern) : List Char → Option Nat
  | [] => if p.acceptsEmpty then some 0 else none
  | c :: rest =>
      let next := p.derive c
      let further := if next.isNothing then none else longest? next rest
      match further with
      | some n => some (n + 1)
      | none => if p.acceptsEmpty then some 0 else none

/-- A fixed text. -/
def literal (text : List Char) : Pattern :=
  text.foldr (fun c rest => .seq (.one (· == c)) rest) .empty

/-- A pattern or the empty text. -/
def optional (p : Pattern) : Pattern :=
  .either p .empty

/-- One or more texts of a pattern. -/
def repeated (p : Pattern) : Pattern :=
  .seq p (.many p)

/-! ## What the operations stand for -/

theorem matches_nothing {s : List Char} : ¬ Matches .nothing s :=
  fun h => by cases h

theorem matches_empty_iff {s : List Char} : Matches .empty s ↔ s = [] :=
  ⟨fun h => by cases h; rfl, fun h => h ▸ .empty⟩

theorem matches_one_iff {accepts : Char → Bool} {s : List Char} :
    Matches (.one accepts) s ↔ ∃ c, accepts c = true ∧ s = [c] := by
  constructor
  · intro h
    cases h with
    | one hc => exact ⟨_, hc, rfl⟩
  · rintro ⟨c, hc, rfl⟩
    exact .one hc

theorem matches_seq_iff {p q : Pattern} {s : List Char} :
    Matches (.seq p q) s ↔ ∃ t u, s = t ++ u ∧ Matches p t ∧ Matches q u := by
  constructor
  · intro h
    cases h with
    | seq hp hq => exact ⟨_, _, rfl, hp, hq⟩
  · rintro ⟨t, u, rfl, hp, hq⟩
    exact .seq hp hq

theorem matches_either_iff {p q : Pattern} {s : List Char} :
    Matches (.either p q) s ↔ Matches p s ∨ Matches q s := by
  constructor
  · intro h
    cases h with
    | left h => exact .inl h
    | right h => exact .inr h
  · exact fun h => h.elim .left .right

theorem acceptsEmpty_iff (p : Pattern) : p.acceptsEmpty = true ↔ Matches p [] := by
  induction p with
  | nothing => simp [acceptsEmpty, matches_nothing]
  | empty => simp [acceptsEmpty, matches_empty_iff]
  | one accepts => simp [acceptsEmpty, matches_one_iff]
  | seq p q ihp ihq =>
      rw [acceptsEmpty, Bool.and_eq_true, ihp, ihq, matches_seq_iff]
      constructor
      · rintro ⟨hp, hq⟩
        exact ⟨[], [], rfl, hp, hq⟩
      · rintro ⟨t, u, h, hp, hq⟩
        obtain ⟨rfl, rfl⟩ := List.append_eq_nil_iff.mp h.symm
        exact ⟨hp, hq⟩
  | either p q ihp ihq =>
      rw [acceptsEmpty, Bool.or_eq_true, ihp, ihq, matches_either_iff]
  | many p _ => exact ⟨fun _ => .done, fun _ => rfl⟩

theorem matches_join_iff {p q : Pattern} {s : List Char} :
    Matches (join p q) s ↔ Matches (.seq p q) s := by
  rw [matches_seq_iff]
  unfold join
  split
  · exact ⟨fun h => (matches_nothing h).elim, fun ⟨_, _, _, h, _⟩ => (matches_nothing h).elim⟩
  · exact ⟨fun h => (matches_nothing h).elim, fun ⟨_, _, _, _, h⟩ => (matches_nothing h).elim⟩
  · refine ⟨fun h => ⟨[], s, rfl, .empty, h⟩, ?_⟩
    rintro ⟨t, u, rfl, ht, hu⟩
    rw [matches_empty_iff] at ht
    simpa [ht] using hu
  · refine ⟨fun h => ⟨s, [], by simp, h, .empty⟩, ?_⟩
    rintro ⟨t, u, rfl, ht, hu⟩
    rw [matches_empty_iff] at hu
    simpa [hu] using ht
  · exact matches_seq_iff

theorem matches_choose_iff {p q : Pattern} {s : List Char} :
    Matches (choose p q) s ↔ Matches p s ∨ Matches q s := by
  unfold choose
  split
  · exact ⟨.inr, fun h => h.elim (fun h => (matches_nothing h).elim) id⟩
  · exact ⟨.inl, fun h => h.elim id (fun h => (matches_nothing h).elim)⟩
  · exact matches_either_iff

theorem matches_many_cons {p : Pattern} {c : Char} {s : List Char}
    (h : Matches (.many p) (c :: s)) :
    ∃ t u, s = t ++ u ∧ Matches p (c :: t) ∧ Matches (.many p) u := by
  generalize hp : Pattern.many p = q at h
  generalize hs : c :: s = w at h
  induction h with
  | done => simp at hs
  | @more body t u ht hu _ ihu =>
      cases hp
      cases t with
      | nil => exact ihu rfl hs
      | cons d t =>
          simp only [List.cons_append, List.cons.injEq] at hs
          obtain ⟨rfl, rfl⟩ := hs
          exact ⟨t, u, rfl, ht, hu⟩
  | _ => simp at hp

/-- The first character of two texts is in the first one, or the first one is empty. -/
theorem matches_seq_cons_iff {p q : Pattern} {c : Char} {s : List Char} :
    Matches (.seq p q) (c :: s)
      ↔ (∃ t u, s = t ++ u ∧ Matches p (c :: t) ∧ Matches q u)
        ∨ (Matches p [] ∧ Matches q (c :: s)) := by
  rw [matches_seq_iff]
  constructor
  · rintro ⟨t, u, h, hp, hq⟩
    cases t with
    | nil => exact .inr ⟨hp, by simpa [h] using hq⟩
    | cons d t =>
        obtain ⟨rfl, rfl⟩ := List.cons.inj h
        exact .inl ⟨t, u, rfl, hp, hq⟩
  · rintro (⟨t, u, rfl, hp, hq⟩ | ⟨hp, hq⟩)
    · exact ⟨c :: t, u, rfl, hp, hq⟩
    · exact ⟨[], c :: s, rfl, hp, hq⟩

/-- The derivative stands for what follows the character. -/
theorem matches_derive_iff {p : Pattern} {c : Char} {s : List Char} :
    Matches (p.derive c) s ↔ Matches p (c :: s) := by
  induction p generalizing s with
  | nothing => exact ⟨fun h => (matches_nothing h).elim, fun h => (matches_nothing h).elim⟩
  | empty =>
      exact ⟨fun h => (matches_nothing h).elim, fun h => by simp [matches_empty_iff] at h⟩
  | one accepts =>
      simp only [derive, matches_one_iff, List.cons.injEq]
      split
      · rename_i hc
        rw [matches_empty_iff]
        exact ⟨fun h => ⟨c, hc, rfl, h⟩, fun ⟨_, _, _, h⟩ => h⟩
      · rename_i hc
        refine ⟨fun h => (matches_nothing h).elim, ?_⟩
        rintro ⟨_, haccepts, rfl, -⟩
        exact absurd haccepts hc
  | seq p q ihp ihq =>
      have hjoin : Matches (join (p.derive c) q) s
          ↔ ∃ t u, s = t ++ u ∧ Matches p (c :: t) ∧ Matches q u := by
        simp only [matches_join_iff, matches_seq_iff, ihp]
      rw [matches_seq_cons_iff]
      simp only [derive]
      split
      · rename_i hempty
        rw [matches_choose_iff, hjoin, ihq]
        simp [(acceptsEmpty_iff p).mp hempty]
      · rename_i hempty
        rw [hjoin]
        simp [mt (acceptsEmpty_iff p).mpr hempty]
  | either p q ihp ihq => simp [derive, matches_choose_iff, matches_either_iff, ihp, ihq]
  | many p ih =>
      simp only [derive, matches_join_iff, matches_seq_iff, ih]
      refine ⟨?_, matches_many_cons⟩
      rintro ⟨t, u, rfl, hp, hq⟩
      exact .more hp hq

end Pattern

end Specimen.Source
