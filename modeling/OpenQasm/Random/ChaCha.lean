/-!
# Seeded uniform draws

A seed of 64 bits determines an endless stream of uniform draws. The seed is stretched to a key
of eight words by a permuted congruential generator; the stream is that of the ChaCha cipher with
twelve rounds under this key, a block counter from zero and a zero nonce, read as 64-bit words,
the low half first. The upper 53 bits of a word make a double in `[0, 1)`.

Model of the generator that measurements draw from. Out of scope: runs without a seed, which take
one from the operating system.
-/

namespace OpenQasm.Random

/-- One step of the congruential generator that stretches the seed. -/
def advanceSeed (s : UInt64) : UInt64 := s * 6364136223846793005 + 11634580027462260723

/-- A word turned right by `n` places, `n` below 32. -/
def rotateRight (x : UInt32) (n : UInt32) : UInt32 := (x >>> n) ||| (x <<< ((32 - n) &&& 31))

/-- A word turned left by `n` places, `0 < n < 32`. -/
def rotateLeft (x : UInt32) (n : UInt32) : UInt32 := (x <<< n) ||| (x >>> (32 - n))

/-- The word that a state of the congruential generator gives. -/
def seedWord (s : UInt64) : UInt32 :=
  rotateRight (((s >>> 18) ^^^ s) >>> 27).toUInt32 (s >>> 59).toUInt32

/-- The next `count` key words, from the state `s` on. -/
def keyWords : (count : Nat) → (s : UInt64) → List UInt32
  | 0, _ => []
  | count + 1, s => seedWord (advanceSeed s) :: keyWords count (advanceSeed s)

/-- The four constant words of the cipher. -/
def constants : List UInt32 := [0x61707865, 0x3320646e, 0x79622d32, 0x6b206574]

/-- The cipher's sixteen words before the first round of a block. -/
def blockInput (key : List UInt32) (counter : UInt64) : Array UInt32 :=
  (constants ++ key ++ [counter.toUInt32, (counter >>> 32).toUInt32, 0, 0]).toArray

/-- A word of a block. -/
def word (block : Array UInt32) (i : Nat) : UInt32 := block.getD i 0

/-- One half of a quarter round: `a += b; d ^= a; d` turned left by `n`. -/
def mix (a b d : Nat) (n : UInt32) (x : Array UInt32) : Array UInt32 :=
  let sum := word x a + word x b
  (x.setIfInBounds a sum).setIfInBounds d (rotateLeft (word x d ^^^ sum) n)

/-- A quarter round on four words. -/
def quarterRound (a b c d : Nat) (x : Array UInt32) : Array UInt32 :=
  mix c d b 7 (mix a b d 8 (mix c d b 12 (mix a b d 16 x)))

/-- A round on the columns and a round on the diagonals. -/
def doubleRound (x : Array UInt32) : Array UInt32 :=
  let columns := quarterRound 3 7 11 15 (quarterRound 2 6 10 14
    (quarterRound 1 5 9 13 (quarterRound 0 4 8 12 x)))
  quarterRound 3 4 9 14 (quarterRound 2 7 8 13
    (quarterRound 1 6 11 12 (quarterRound 0 5 10 15 columns)))

/-- A block of the stream: twelve rounds, then the input added. -/
def block (key : List UInt32) (counter : UInt64) : Array UInt32 :=
  let input := blockInput key counter
  (Nat.repeat doubleRound 6 input).zipWith (· + ·) input

/-- The `k`-th 64-bit word of the stream of a seed. -/
def stream (seed : UInt64) (k : Nat) : UInt64 :=
  let words := block (keyWords 8 seed) (UInt64.ofNat (k / 8))
  let low := word words (2 * (k % 8))
  let high := word words (2 * (k % 8) + 1)
  low.toUInt64 ||| (high.toUInt64 <<< 32)

/-- The double in `[0, 1)` that the upper 53 bits of a word make. -/
def unitFloat (w : UInt64) : Float := (w >>> 11).toFloat / Float.ofNat (Nat.pow 2 53)

/-- The `k`-th uniform draw of a seed. -/
def draw (seed : UInt64) (k : Nat) : Float := unitFloat (stream seed k)

end OpenQasm.Random
