import Specimen.Random.Uniform

/-!
# Draws stay inside their ranges

`Draw.Ensures draw P` says that whatever the source, the value of the draw has the property. A draw
of a number is inside its range then, also where the range is all words (`integer_mem_range`).
-/

namespace Specimen

variable {σ α β : Type}

namespace Draw

/-- Whatever the source, the value has the property. -/
def Ensures (draw : Draw σ α) (P : α → Prop) : Prop :=
  ∀ source, P (draw source).1

namespace Ensures

theorem pure {P : α → Prop} {value : α} (h : P value) :
    Ensures (σ := σ) (Pure.pure value) P := by
  intro source
  exact h

theorem bind {draw : Draw σ α} {next : α → Draw σ β} {P : α → Prop} {Q : β → Prop}
    (h : Ensures draw P) (hnext : ∀ value, P value → Ensures (next value) Q) :
    Ensures (draw >>= next) Q := by
  intro source
  exact hnext _ (h source) (draw source).2

theorem mono {draw : Draw σ α} {P Q : α → Prop} (h : Ensures draw P)
    (himp : ∀ value, P value → Q value) : Ensures draw Q := by
  intro source
  exact himp _ (h source)

theorem gather {draw : Draw σ α} {P : α → Prop} (h : Ensures draw P) (count : Nat) :
    Ensures (gather draw count) fun values =>
      values.length = count ∧ ∀ value ∈ values, P value := by
  induction count with
  | zero => exact .pure ⟨rfl, by simp⟩
  | succ count ih =>
      refine h.bind fun value hvalue => ih.bind fun others hothers => .pure ?_
      obtain ⟨hlength, hall⟩ := hothers
      refine ⟨by simp [hlength], ?_⟩
      intro other hother
      rcases List.mem_cons.mp hother with rfl | hother
      · exact hvalue
      · exact hall other hother

/-- Two functions that agree on all values of a draw make the same draw of it. -/
theorem map_congr {draw : Draw σ α} {P : α → Prop} (h : Ensures draw P) {f g : α → β}
    (hagree : ∀ value, P value → f value = g value) : f <$> draw = g <$> draw := by
  funext source
  exact congrArg (·, (draw source).2) (hagree _ (h source))

end Ensures

theorem any (draw : Draw σ α) : Ensures draw fun _ => True := by
  intro source
  trivial

theorem below_lt {size count : Nat} {next : Draw σ Nat} (hnext : Ensures next (· < size))
    (hcount : 0 < count) (hsize : count ≤ size) :
    Ensures (below size next count) (· < count) := by
  refine hnext.bind fun word hword => ?_
  by_cases hall : count = size
  · rw [if_pos hall]
    exact .pure (hall ▸ hword)
  · rw [if_neg hall]
    obtain ⟨hfirst, hsecond⟩ := pick_lt hword hcount (by omega)
    dsimp only
    split
    · rename_i hlow
      refine hnext.bind fun second _ => .pure ?_
      split
      · exact hsecond hlow
      · exact hfirst
    · exact .pure hfirst

variable [WordSource σ]

theorem word32_lt : Ensures (σ := σ) word32 (· < UInt32.size) := by
  intro source
  exact UInt32.toNat_lt_size _

theorem word64_lt : Ensures (σ := σ) word64 (· < UInt64.size) := by
  intro source
  exact UInt64.toNat_lt_size _

theorem below32_lt {count : Nat} (hcount : 0 < count) (hsize : count ≤ UInt32.size) :
    Ensures (σ := σ) (below32 count) (· < count) :=
  below_lt word32_lt hcount hsize

theorem below64_lt {count : Nat} (hcount : 0 < count) (hsize : count ≤ UInt64.size) :
    Ensures (σ := σ) (below64 count) (· < count) :=
  below_lt word64_lt hcount hsize

theorem between_mem_range {least greatest : Nat} (horder : least ≤ greatest)
    (hsize : greatest < UInt64.size) :
    Ensures (σ := σ) (between least greatest) fun n => least ≤ n ∧ n ≤ greatest := by
  have hadd : ∀ draw : Draw σ Nat, Ensures draw (· < greatest - least + 1) →
      Ensures (do return least + (← draw)) fun n => least ≤ n ∧ n ≤ greatest := by
    intro draw hdraw
    refine hdraw.bind fun offset hoffset => .pure ?_
    omega
  unfold between
  dsimp only
  split
  · exact hadd _ (below32_lt (by omega) (by omega))
  · exact hadd _ (below64_lt (by omega) (by omega))

theorem place_lt {count : Nat} (hcount : 0 < count) (hsize : count ≤ UInt64.size) :
    Ensures (σ := σ) (place count) (· < count) := by
  unfold place
  split
  · exact below32_lt hcount (by omega)
  · exact below64_lt hcount hsize

/-- An integer is inside its range. The range of all integers has as many of them as there are long
words; the word is read with its sign then. -/
theorem integer_mem_range {least greatest : Int} (hleast : Int64.minValue.toInt ≤ least)
    (horder : least ≤ greatest) (hgreatest : greatest ≤ Int64.maxValue.toInt) :
    Ensures (σ := σ) (integer least greatest) fun n => least ≤ n ∧ n ≤ greatest := by
  have hmin := Int64.toInt_minValue
  have hmax := Int64.toInt_maxValue
  have hall : (UInt64.size : Int) = 18446744073709551616 := rfl
  have hcount : (greatest - least + 1).toNat ≤ UInt64.size := by omega
  refine (below64_lt (by omega) hcount).bind fun offset hoffset => .pure ?_
  split
  · rename_i hwhole
    have hlow : -((UInt64.size : Int) / 2) ≤ (offset : Int).bmod UInt64.size :=
      Int.le_bmod (by decide)
    have hhigh : (offset : Int).bmod UInt64.size < ((UInt64.size : Int) + 1) / 2 :=
      Int.bmod_lt (by decide)
    omega
  · omega

end Draw

end Specimen
