import Specimen.Random.WordSource
import Specimen.Binary64.Nearest

/-!
# Uniform draws

Numbers from a range, by widening multiplication: a word times the size of the range, cut to its
upper half, is a number below the size. If the lower half is so large that the cut may be off, a
second word decides whether one is added; the number stays below the size (`pick_lt`). A range of
all words takes the word itself.
-/

namespace Specimen

variable {σ : Type}

namespace Draw

/-- A number below `count`, from words below `size`. -/
def below (size : Nat) (next : Draw σ Nat) (count : Nat) : Draw σ Nat := do
  let word ← next
  if count = size then return word
  let product := word * count
  let result := product / size
  let low := product % size
  if size - count < low then
    let second ← next
    return if size ≤ low + second * count / size then result + 1 else result
  else return result

variable [WordSource σ]

/-- The next short word. -/
def word32 : Draw σ Nat := fun source =>
  let (word, source) := WordSource.next32 source
  (word.toNat, source)

/-- The next long word. -/
def word64 : Draw σ Nat := fun source =>
  let (word, source) := WordSource.next64 source
  (word.toNat, source)

/-- A number below `count`, from short words. -/
def below32 (count : Nat) : Draw σ Nat :=
  below UInt32.size word32 count

/-- A number below `count`, from long words. -/
def below64 (count : Nat) : Draw σ Nat :=
  below UInt64.size word64 count

/-- A number from `least` to `greatest`. The greatest number decides about the words. -/
def between (least greatest : Nat) : Draw σ Nat := do
  let count := greatest - least + 1
  let offset ← if greatest < UInt32.size then below32 count else below64 count
  return least + offset

/-- The place of an item in a list of `count` items. -/
def place (count : Nat) : Draw σ Nat :=
  if count < UInt32.size then below32 count else below64 count

/-- An integer from `least` to `greatest`, which are sixty-four bits long with their sign. -/
def integer (least greatest : Int) : Draw σ Int := do
  let offset ← below64 (greatest - least + 1).toNat
  return if greatest - least + 1 = UInt64.size then (offset : Int).bmod UInt64.size
    else least + offset

/-- Heads or tails. -/
def coin : Draw σ Bool := do
  let word ← word64
  return decide (word < UInt64.size / 2)

/-- A multiple of `2 ^ -53` from zero up to one, without one. -/
def fraction : Draw σ Float := do
  let word ← word64
  return Binary64.ofQuotient (word / 2048) (2 * Binary64.fractionCount)

end Draw

/-- What the first word alone gives is below the size of the range, and one may be added to it
whenever a second word is asked. -/
theorem pick_lt {size word count : Nat} (hword : word < size) (hcount : 0 < count)
    (hsize : count < size) :
    word * count / size < count
      ∧ (size - count < word * count % size → word * count / size + 1 < count) := by
  have hproduct : word * count ≤ (size - 1) * count :=
    Nat.mul_le_mul_right count (by omega)
  have hexpand : (size - 1) * count + count = size * count := by
    rw [Nat.sub_mul, Nat.one_mul]
    exact Nat.sub_add_cancel (Nat.le_mul_of_pos_left count (by omega))
  have hsplit := Nat.div_add_mod (word * count) size
  constructor
  · apply Nat.div_lt_of_lt_mul
    omega
  · intro hlow
    apply Decidable.byContradiction
    intro hge
    have hlast : size * (count - 1) ≤ size * (word * count / size) :=
      Nat.mul_le_mul_left _ (by omega)
    have hone : size * (count - 1) + size = size * count := by
      rw [← Nat.mul_succ]
      congr 1
      omega
    omega

end Specimen
