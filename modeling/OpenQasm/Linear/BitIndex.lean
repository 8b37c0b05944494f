/-!
# Basis indices as lists of bits

A basis state of several qubits is numbered by its bits, qubit `j` being bit `j`. A list of
positions names some of the bits of an index, in any order:

* `spread positions i` puts bit `j` of `i` at `positions[j]`;
* `gather positions i` reads bit `positions[j]` of `i` into bit `j`;
* `clear positions i` leaves the bits that are not listed.

For distinct positions, `gather` undoes `spread`, and `clear positions i` and
`spread positions (gather positions i)` share no bit and make up `i`.

Model of the bit arithmetic of the kernels, with numbers of any size. Out of scope: the words of 64
bits that an index is (`Linear/Words`).
-/

namespace OpenQasm.BitIndex

/-- Bit `j` of `i` moved to `positions[j]`. -/
def spread : List Nat → Nat → Nat
  | [], _ => 0
  | p :: ps, i => (if i.testBit 0 then 1 <<< p else 0) ||| spread ps (i / 2)

/-- Bit `positions[j]` of `i` moved to bit `j`. -/
def gather : List Nat → Nat → Nat
  | [], _ => 0
  | p :: ps, i => (i.testBit p).toNat + 2 * gather ps i

/-- The number whose set bits are the listed positions. -/
def mask (positions : List Nat) : Nat := positions.foldl (fun m p => m ||| 1 <<< p) 0

/-- The bits of `i` that `m` does not have. -/
def without (m i : Nat) : Nat := i ^^^ (i &&& m)

/-- The bits of `i` outside the listed positions. -/
def clear (positions : List Nat) (i : Nat) : Nat := without (mask positions) i

/-- The bits of `i` at `offset`, `offset + 1`, ... `offset + width - 1`, as a number. -/
def field (offset width i : Nat) : Nat := (i >>> offset) % Nat.pow 2 width

/-- The lowest `width` bits of `i`, least significant first. -/
def bits (width i : Nat) : List Bool := (List.range width).map i.testBit

/-- The number with these bits, least significant first. -/
def ofBits (bs : List Bool) : Nat := bs.foldr (fun b n => b.toNat + 2 * n) 0

/-- How many times `n` can be halved, asked at most `fuel` times. -/
def halvings : Nat → Nat → Nat
  | 0, _ => 0
  | fuel + 1, n => if n % 2 = 0 then halvings fuel (n / 2) + 1 else 0

/-- The number of zero bits at the low end of a 64-bit word. -/
def trailingZeros (n : Nat) : Nat := halvings 64 n

/-- The exponent of a power of two. -/
def exactLog2? (n : Nat) : Option Nat := if Nat.pow 2 n.log2 = n then some n.log2 else none

end OpenQasm.BitIndex
