import Specimen.Random.Uniform

/-!
# Draws that do not break off

`Draw.Steady draw` says that the draw leaves the record of a watched source as it is. Words do,
and so does everything that is made of words only.
-/

namespace Specimen

variable {σ α β : Type}

namespace Draw

/-- Whatever the source, its record is the same afterwards. -/
def Steady (draw : Draw (Watched σ) α) : Prop :=
  ∀ source, (draw source).2.brokenOff = source.brokenOff

namespace Steady

theorem pure (value : α) : Steady (σ := σ) (Pure.pure value) := by
  intro source
  rfl

theorem bind {draw : Draw (Watched σ) α} {next : α → Draw (Watched σ) β} (h : Steady draw)
    (hnext : ∀ value, Steady (next value)) : Steady (draw >>= next) := by
  intro source
  exact (hnext _ _).trans (h source)

theorem map {draw : Draw (Watched σ) α} (h : Steady draw) (f : α → β) : Steady (f <$> draw) :=
  fun source => h source

theorem gather {draw : Draw (Watched σ) α} (h : Steady draw) (count : Nat) :
    Steady (gather draw count) := by
  induction count with
  | zero => exact pure _
  | succ count ih => exact h.bind fun _ => ih.bind fun _ => pure _

theorem below {next : Draw (Watched σ) Nat} (h : Steady next) (size count : Nat) :
    Steady (below size next count) := by
  refine h.bind fun _ => ?_
  split
  · exact pure _
  · dsimp only
    split
    · exact h.bind fun _ => pure _
    · exact pure _

variable [WordSource σ]

theorem word32 : Steady (σ := σ) word32 := by
  intro source
  rfl

theorem word64 : Steady (σ := σ) word64 := by
  intro source
  rfl

theorem between (least greatest : Nat) : Steady (σ := σ) (between least greatest) := by
  unfold Draw.between
  dsimp only
  split
  · exact (word32.below _ _).bind fun _ => pure _
  · exact (word64.below _ _).bind fun _ => pure _

theorem place (count : Nat) : Steady (σ := σ) (place count) := by
  unfold Draw.place
  split
  · exact word32.below _ _
  · exact word64.below _ _

theorem integer (least greatest : Int) : Steady (σ := σ) (integer least greatest) :=
  (word64.below _ _).bind fun _ => pure _

theorem coin : Steady (σ := σ) coin :=
  word64.bind fun _ => pure _

theorem fraction : Steady (σ := σ) fraction :=
  word64.bind fun _ => pure _

end Steady

end Draw

end Specimen
