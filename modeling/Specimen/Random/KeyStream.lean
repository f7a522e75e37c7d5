import Specimen.Random.WordSource

/-!
# The key stream of a seed

A seed of sixty-four bits is stretched to a key of eight words, and the key to an endless stream of
words of thirty-two bits, sixteen a block: each block is a fixed mixture of the key and the number
of the block, in eight rounds (four times a round over the columns and one over the diagonals of a
square of sixteen words). A long word is made of two short ones, the low half first.
-/

namespace Specimen

/-- The state of a key stream: the key, the number of the next block and the words that are left of
the present one. -/
structure KeyStream where
  key : List UInt32
  block : UInt64
  left : List UInt32

namespace KeyStream

/-! ## From the seed to the key -/

/-- One step of the generator that stretches a seed. -/
def stretch (state : UInt64) : UInt64 :=
  state * 6364136223846793005 + 11634580027462260723

/-- `word` with its bits moved to the right in a circle. -/
def rotateRight (word amount : UInt32) : UInt32 :=
  (word >>> amount) ||| (word <<< ((32 - amount) % 32))

/-- The key word of a state of the generator. -/
def keyWord (state : UInt64) : UInt32 :=
  rotateRight (((state >>> 18) ^^^ state) >>> 27).toUInt32 (state >>> 59).toUInt32

/-- The first words of the key of a generator state. -/
def keyWords (state : UInt64) : Nat → List UInt32
  | 0 => []
  | n + 1 => keyWord (stretch state) :: keyWords (stretch state) n

/-- The key stream of a seed, before its first word. -/
def ofSeed (seed : UInt64) : KeyStream :=
  ⟨keyWords seed 8, 0, []⟩

/-! ## From the key to the blocks -/

/-- `word` with its bits moved to the left in a circle. -/
def rotateLeft (word amount : UInt32) : UInt32 :=
  (word <<< amount) ||| (word >>> (32 - amount))

/-- Mixes four words. -/
def quarterRound (a b c d : UInt32) : UInt32 × UInt32 × UInt32 × UInt32 :=
  let a := a + b
  let d := rotateLeft (d ^^^ a) 16
  let c := c + d
  let b := rotateLeft (b ^^^ c) 12
  let a := a + b
  let d := rotateLeft (d ^^^ a) 8
  let c := c + d
  let b := rotateLeft (b ^^^ c) 7
  (a, b, c, d)

/-- Mixes the words of a square at four places. -/
def mixAt (square : Array UInt32) (i j k l : Nat) : Array UInt32 :=
  let (a, b, c, d) :=
    quarterRound (square.getD i 0) (square.getD j 0) (square.getD k 0) (square.getD l 0)
  (((square.setIfInBounds i a).setIfInBounds j b).setIfInBounds k c).setIfInBounds l d

/-- The places of the columns and of the diagonals of a square. -/
def lines : List (Nat × Nat × Nat × Nat) :=
  [(0, 4, 8, 12), (1, 5, 9, 13), (2, 6, 10, 14), (3, 7, 11, 15),
    (0, 5, 10, 15), (1, 6, 11, 12), (2, 7, 8, 13), (3, 4, 9, 14)]

/-- A round over the columns and one over the diagonals. -/
def doubleRound (square : Array UInt32) : Array UInt32 :=
  lines.foldl (fun square (i, j, k, l) => mixAt square i j k l) square

/-- The fixed words at the start of every square. -/
def constants : List UInt32 :=
  [0x61707865, 0x3320646e, 0x79622d32, 0x6b206574]

/-- The square that a block is made from. -/
def square (key : List UInt32) (block : UInt64) : List UInt32 :=
  constants ++ key ++ [block.toUInt32, (block >>> 32).toUInt32, 0, 0]

/-- The words of a block. -/
def blockWords (key : List UInt32) (block : UInt64) : List UInt32 :=
  let start := square key block
  let mixed := Nat.repeat doubleRound 4 start.toArray
  List.zipWith (· + ·) mixed.toList start

/-- The next word of the stream. -/
def next (stream : KeyStream) : UInt32 × KeyStream :=
  match stream.left with
  | word :: left => (word, { stream with left })
  | [] =>
      match blockWords stream.key stream.block with
      | word :: left => (word, { stream with block := stream.block + 1, left })
      | [] => (0, stream)

instance : WordSource KeyStream where
  next32 := next
  next64 stream :=
    let (low, stream) := stream.next
    let (high, stream) := stream.next
    ((high.toUInt64 <<< 32) ||| low.toUInt64, stream)

end KeyStream

end Specimen
