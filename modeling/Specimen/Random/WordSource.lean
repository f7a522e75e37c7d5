/-!
# Sources of random words

Everything random is drawn from a source of words, a value that each draw replaces by the next
state of the source. A source gives words of thirty-two and of sixty-four bits; how the two are
related is its own matter.

A run may have to break off in the middle of a draw, because there is no room for what it makes.
There is no value then. The draws go on with a stand-in, and the source is told: one that is
`Watched` keeps a record of it, and what is drawn counts only as long as the record is empty.
-/

namespace Specimen

/-- A source of random words. -/
class WordSource (σ : Type) where
  next32 : σ → UInt32 × σ
  next64 : σ → UInt64 × σ
  /-- The source after the run has broken off. -/
  breakOff : σ → σ := id

/-- A draw from a source: a value and the next state of the source. -/
abbrev Draw (σ α : Type) : Type := StateM σ α

/-- Breaks the run off. The value is a stand-in. -/
def Draw.breakOff {σ α : Type} [WordSource σ] (standIn : α) : Draw σ α := fun source =>
  (standIn, WordSource.breakOff source)

/-- A source with a record of whether the run has broken off. -/
structure Watched (σ : Type) where
  source : σ
  brokenOff : Bool

namespace Watched

variable {σ : Type}

/-- A source that is watched from here on. -/
def start (source : σ) : Watched σ :=
  ⟨source, false⟩

/-- The words are those of the source. -/
instance [WordSource σ] : WordSource (Watched σ) where
  next32 watched :=
    let (word, source) := WordSource.next32 watched.source
    (word, { watched with source })
  next64 watched :=
    let (word, source) := WordSource.next64 watched.source
    (word, { watched with source })
  breakOff watched := { watched with brokenOff := true }

end Watched

/-- The results of an action that is done several times, in order. -/
def gather {m : Type → Type} [Monad m] {α : Type} (action : m α) : Nat → m (List α)
  | 0 => pure []
  | n + 1 => do
      let first ← action
      let others ← gather action n
      return first :: others

/-- A list of words that is used from its start to its end and then again from its start. -/
structure WordCycle where
  words : List UInt64
  /-- The words that are left of the present round. -/
  left : List UInt64

namespace WordCycle

/-- The cycle of a list of words, before its first word. -/
def ofList (words : List UInt64) : WordCycle :=
  ⟨words, words⟩

/-- The next word; zero if there are no words at all. -/
def next (cycle : WordCycle) : UInt64 × WordCycle :=
  match cycle.left with
  | word :: left => (word, { cycle with left })
  | [] =>
      match cycle.words with
      | word :: left => (word, { cycle with left })
      | [] => (0, cycle)

/-- A short word is the low half of a long one. -/
instance : WordSource WordCycle where
  next32 cycle := (cycle.next.1.toUInt32, cycle.next.2)
  next64 := next

end WordCycle

end Specimen
