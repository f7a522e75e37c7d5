import Specimen.Proofs.Random.Range

/-!
# Ranges in machine words

`Draw.integer` counts a range with numbers of any size. `Draw.int64?` does with sixty-four bits: the
width of a range wraps round, to zero for the range of all integers and for no other one
(`toNat_width`, `width_eq_zero_iff`), and a range that is empty is refused. On every other range the
two draw the same (`int64?_eq`).
-/

namespace Specimen.Draw

variable {σ : Type} [WordSource σ]

/-- The number of integers in a range as a word. Zero stands for all of them. -/
def width (least greatest : Int64) : UInt64 :=
  (greatest - least + 1).toUInt64

/-- An integer from `least` to `greatest`, computed in words; none if there is no such integer. -/
def int64? (least greatest : Int64) : Option (Draw σ Int64) :=
  if greatest < least then none
  else if width least greatest = 0 then
    some (UInt64.toInt64 <$> (WordSource.next64 : Draw σ UInt64))
  else some ((fun offset => least + Int64.ofNat offset) <$> below64 (width least greatest).toNat)

/-- A word is the integer that it stands for, counted round. -/
theorem natCast_toNat_toUInt64 (x : Int64) :
    (x.toUInt64.toNat : Int) = x.toInt % UInt64.size := by
  have hint : x.toInt = (x.toUInt64.toNat : Int).bmod UInt64.size :=
    BitVec.toInt_eq_toNat_bmod x.toBitVec
  have hlt := x.toUInt64.toNat_lt
  rw [hint, Int.bmod_emod]
  simp only [UInt64.size]
  omega

theorem toNat_width {least greatest : Int64} (horder : least.toInt ≤ greatest.toInt) :
    (width least greatest).toNat = (greatest.toInt - least.toInt + 1).toNat % UInt64.size := by
  have hround : ((width least greatest).toNat : Int)
      = (greatest.toInt - least.toInt + 1) % UInt64.size := by
    rw [width, natCast_toNat_toUInt64, Int64.toInt_add, Int64.toInt_sub, Int64.toInt_one,
      Int.bmod_add_bmod]
    exact Int.bmod_emod
  simp only [UInt64.size] at hround ⊢
  omega

/-- The width wraps round for the range of all integers only. -/
theorem width_eq_zero_iff {least greatest : Int64} (horder : least.toInt ≤ greatest.toInt) :
    width least greatest = 0 ↔ least = Int64.minValue ∧ greatest = Int64.maxValue := by
  have hmin := least.minValue_le_toInt
  have hmax := greatest.toInt_le
  have htoNat := toNat_width horder
  rw [← UInt64.toNat_inj, ← Int64.toInt_inj, ← Int64.toInt_inj, htoNat]
  simp only [Int64.toInt_minValue, Int64.toInt_maxValue, UInt64.toNat_zero, UInt64.size] at *
  omega

/-- A word that is read with its sign is the integer that it stands for. -/
theorem ofInt_bmod_toNat (word : UInt64) :
    Int64.ofInt ((word.toNat : Int).bmod UInt64.size) = word.toInt64 := by
  apply Int64.toInt_inj.mp
  rw [Int64.toInt_ofInt, show Int64.size = UInt64.size from rfl, Int.bmod_bmod]
  exact (BitVec.toInt_eq_toNat_bmod word.toInt64.toBitVec).symm

/-- On a range that is not empty the words do not change what is drawn. -/
theorem int64?_eq {least greatest : Int64} (horder : least.toInt ≤ greatest.toInt) :
    int64? (σ := σ) least greatest
      = some (Int64.ofInt <$> integer least.toInt greatest.toInt) := by
  have hnonempty : ¬greatest < least := by
    rw [Int64.lt_iff_toInt_lt]
    omega
  unfold int64?
  rw [if_neg hnonempty]
  have htoNat := toNat_width horder
  by_cases hwidth : width least greatest = 0
  · rw [if_pos hwidth]
    have hall : greatest.toInt - least.toInt + 1 = UInt64.size := by
      obtain ⟨rfl, rfl⟩ := (width_eq_zero_iff horder).mp hwidth
      rfl
    congr 1
    funext source
    simp only [integer, hall, below64, below, Int.toNat_natCast, if_true, bind_pure, bind_pure_comp,
      Functor.map_map]
    exact Prod.ext (ofInt_bmod_toNat _).symm rfl
  · rw [if_neg hwidth]
    have hne : greatest.toInt - least.toInt + 1 ≠ UInt64.size := by
      intro hall
      rw [hall, Int.toNat_natCast, Nat.mod_self] at htoNat
      exact hwidth (UInt64.toNat_inj.mp htoNat)
    have hcount : (width least greatest).toNat = (greatest.toInt - least.toInt + 1).toNat := by
      have hmin := least.minValue_le_toInt
      have hmax := greatest.toInt_le
      simp only [Int64.toInt_minValue, Int64.toInt_maxValue, UInt64.size] at *
      omega
    have hoffset : ∀ offset : Nat, Int64.ofInt (least.toInt + offset)
        = least + Int64.ofNat offset := by
      intro offset
      rw [Int64.ofInt_add, Int64.ofInt_toInt, Int64.ofInt_eq_ofNat]
    simp only [integer, if_neg hne, bind_pure_comp, Functor.map_map, hoffset, hcount]

end Specimen.Draw
