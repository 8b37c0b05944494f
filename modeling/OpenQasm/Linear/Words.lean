import OpenQasm.Linear.SquareMatrix

/-!
# The kernels on machine words

The kernels count with numbers of any size and read zero outside of an array. A machine counts with
words of 64 bits, shifts a word by less than its length, and stops at an index outside of an array.
Here the kernels stand once more, as loops in which each such step is guarded.

* `Hazard` is what a guard stops at; an error that the kernel itself answers is kept apart from it
  (`Halt`).
* `Guarded.add`, `Guarded.shiftLeft`, `Guarded.read` and the others are the guarded steps.
* `Guarded.applyOnTargets` gathers and spreads bits by shifts and reads a row of the matrix as a
  slice; `Guarded.measure` and `Guarded.reset` read a register through a mask.
* `Guarded.identityOn` and `Guarded.redimension` count the entries of the matrices that they build.

An array has no more entries than a word counts, so nothing is asked of the bounds of a slice but
that they lie inside the array.
-/

namespace OpenQasm

/-- A step that words of 64 bits and arrays of a fixed size do not allow. -/
inductive Hazard where
  | overflow (value : Nat)
  | underflow (a b : Nat)
  | shift (amount : Nat)
  | index (i size : Nat)
  | slice (first last size : Nat)
  | range (offset width qubits : Nat)
  | allocation (entries : Nat)
deriving DecidableEq, Repr

/-- Why a guarded computation ends early: at a guard, or with an error of its own. -/
inductive Halt (ε : Type) where
  | hazard (hazard : Hazard)
  | fault (error : ε)
deriving DecidableEq, Repr

/-- An error of its own, seen from outside. -/
def Halt.map {ε δ : Type} (f : ε → δ) : Halt ε → Halt δ
  | .hazard h => .hazard h
  | .fault error => .fault (f error)

/-- A computation whose steps are guarded. -/
abbrev Guarded (ε α : Type) := Except (Halt ε) α

namespace Guarded

variable {ε α : Type}

/-- A computation that needs no guard. -/
def ofExcept (x : Except ε α) : Guarded ε α := x.mapError .fault

/-! ## Guarded steps -/

/-- What a step relies on. -/
def require (condition : Prop) [Decidable condition] (hazard : Hazard) : Guarded ε Unit :=
  if condition then .ok () else .error (.hazard hazard)

/-- A number that must be a word. -/
def word (n : Nat) : Guarded ε Nat := do
  require (n < UInt64.size) (.overflow n)
  return n

/-- The sum of two words. -/
def add (a b : Nat) : Guarded ε Nat := word (a + b)

/-- The product of two words. -/
def mul (a b : Nat) : Guarded ε Nat := word (a * b)

/-- The difference of two words. -/
def sub (a b : Nat) : Guarded ε Nat := do
  require (b ≤ a) (.underflow a b)
  return a - b

/-- A word with its bits moved up. No bit may be lost. -/
def shiftLeft (a amount : Nat) : Guarded ε Nat := do
  require (amount < 64) (.shift amount)
  word (a <<< amount)

/-- A word with its bits moved down. -/
def shiftRight (a amount : Nat) : Guarded ε Nat := do
  require (amount < 64) (.shift amount)
  return a >>> amount

/-- An index must be one of an array. -/
def inside (i size : Nat) : Guarded ε Unit := require (i < size) (.index i size)

/-- The entry at an index. -/
def read (xs : Array α) (i : Nat) : Guarded ε α :=
  if h : i < xs.size then .ok xs[i] else .error (.hazard (.index i xs.size))

/-- The entries from `first` up to `last`. -/
def slice (xs : Array α) (first last : Nat) : Guarded ε (List α) := do
  require (first ≤ last ∧ last ≤ xs.size) (.slice first last xs.size)
  return (xs.extract first last).toList

/-- An array, entry after entry. -/
def tabulate (n : Nat) (f : Nat → Guarded ε α) : Guarded ε (Array α) := do
  return (← (List.range n).mapM f).toArray

/-! ## An operator on some of the bits -/

/-- Bit `j` of `index` moved to `positions[j]`. -/
def permuteBits (index : Nat) (positions : List Nat) : Guarded ε Nat :=
  positions.zipIdx.foldlM
    (fun moved (position, bit) => do
      let shifted ← shiftRight index bit
      if shifted &&& 1 = 1 then return moved ||| (← shiftLeft 1 position) else return moved) 0

/-- Bit `positions[j]` of `index` moved to bit `j`. -/
def collectBits (index : Nat) (positions : List Nat) : Guarded ε Nat :=
  positions.zipIdx.foldlM
    (fun row (position, bit) => do
      let shifted ← shiftRight index position
      return row ||| (← shiftLeft (shifted &&& 1) bit)) 0

/-- The word whose set bits are the listed positions. -/
def maskOf (positions : List Nat) : Guarded ε Nat :=
  positions.foldlM (fun mask position => return mask ||| (← shiftLeft 1 position)) 0

/-- Apply a matrix to the bits `targets` of the index of a vector. -/
def applyOnTargets [Zero α] [Add α] [Mul α] (vector matrix : Array α) (targets : List Nat) :
    Guarded ε (Array α) := do
  let dim ← shiftLeft 1 targets.length
  let mask ← maskOf targets
  let offsets ← (List.range dim).mapM fun j => permuteBits j targets
  tabulate vector.size fun i => do
    let base := BitIndex.without mask i
    let row ← collectBits i targets
    let entries ← slice matrix (row * dim) ((row + 1) * dim)
    (entries.zip offsets).foldlM
      (fun sum (x, offset) => return sum + x * (← read vector (base ||| offset))) 0

/-! ## Building a matrix -/

/-- The most entries that a matrix can have: sixteen bytes each, and no more bytes in all than a
signed word of 64 bits counts. -/
def maxEntries : Nat := (Nat.pow 2 63 - 1) / 16

/-- The entries of a matrix, as many as there is room for. -/
def room (dim : Nat) : Guarded ε Unit := do
  let entries ← mul dim dim
  require (entries ≤ maxEntries) (.allocation entries)

/-- The identity on some qubits. -/
def identityOn [Zero α] [One α] (qubits : Nat) : Guarded ε (SquareMatrix α) := do
  let dim ← shiftLeft 1 qubits
  room dim
  return .identity dim

/-- Lift an operator to `positions.length` qubits, its bit `i` becoming bit `positions[i]`. Counted
are the sizes of the space, of the identity for the bits that are added, of the padded operator and
of the lift, and each place that a row moves to. -/
def redimension [Zero α] [One α] [Mul α] [BEq α] (m : SquareMatrix α) (positions : List Nat) :
    Guarded AlgebraError (SquareMatrix α) := do
  let full ← shiftLeft 1 positions.length
  let lifted ← ofExcept (m.redimension positions)
  room (full / m.dim)
  let padded ← mul (full / m.dim) m.dim
  room padded
  room full
  let _rows ← (List.range full).mapM fun i => permuteBits i positions
  return lifted

/-! ## Building a state -/

/-- The state of `width` qubits that are all `0`. -/
def zeroState [Zero α] [One α] (width : Nat) : Guarded AlgebraError (StateVector α) := do
  if StateVector.maxQubits < width then throw (.fault (.tooWide width))
  let size ← shiftLeft 1 width
  inside 0 size
  return (StateVector.zeros size).set 0 1

/-- The Kronecker product, whose size is counted first. -/
def tensor [Zero α] [Mul α] (v w : StateVector α) : Guarded ε (StateVector α) := do
  let _size ← mul v.size w.size
  return v.tensor w

/-! ## Reading a register -/

/-- The bits at `offset, ... offset + width - 1` must be bits of the index. -/
def checkRange (v : StateVector α) (offset width : Nat) : Guarded ε Unit := do
  let last ← add offset width
  require (last ≤ v.qubits) (.range offset width v.qubits)

/-- The word of `width` set bits. -/
def registerMask (width : Nat) : Guarded ε Nat := do
  sub (← shiftLeft 1 width) 1

/-- The bits of `i` from `offset` on that `mask` has. -/
def masked (offset mask i : Nat) : Guarded ε Nat := return (← shiftRight i offset) &&& mask

variable {R : Type} [Scalar R]

/-- The mass of each outcome of reading `width` bits at `offset`. -/
def outcomeMasses (v : StateVector (Amplitude R)) (offset width : Nat) : Guarded ε (Array R) := do
  let mask ← registerMask width
  let outcomes ← shiftLeft 1 width
  (List.range v.size).foldlM
    (fun masses i => do
      let outcome ← masked offset mask i
      inside outcome masses.size
      return masses.modify outcome (· + (v.get i).mass))
    (Array.replicate outcomes 0)

/-- Keep the entries that carry `outcome` in the bits at `offset`, divided by `norm`. -/
def collapse (v : StateVector (Amplitude R)) (offset width outcome : Nat) (norm : R) :
    Guarded ε (StateVector (Amplitude R)) := do
  let mask ← registerMask width
  let entries ← tabulate v.size fun i => do
    let found ← masked offset mask i
    return (if found = outcome then v.get i else 0).divBy norm
  return ⟨entries⟩

/-- The lowest `width` bits of an outcome. -/
def outcomeBits (width outcome : Nat) : Guarded ε (List Bool) :=
  (List.range width).mapM fun bit => return (← shiftRight outcome bit) &&& 1 == 1

/-- Measure the bits at `offset, ... offset + width - 1` with the uniform draw `u`. Answers the
bits of the outcome and the collapsed vector. -/
def measure (v : StateVector (Amplitude R)) (offset width : Nat) (u : R) :
    Guarded AlgebraError (List Bool × StateVector (Amplitude R)) := do
  checkRange v offset width
  let masses ← outcomeMasses v offset width
  let outcome ← ofExcept (StateVector.selectOutcome masses.toList u)
  let mass ← read masses outcome
  let after ← collapse v offset width outcome (Scalar.sqrt mass)
  return (← outcomeBits width outcome, after)

/-- Project the bits at `offset, ... offset + width - 1` onto zero and scale to mass one. -/
def reset (v : StateVector (Amplitude R)) (offset width : Nat) :
    Guarded AlgebraError (StateVector (Amplitude R)) := do
  checkRange v offset width
  let mask ← shiftLeft (← registerMask width) offset
  let kept := v.size.fold
    (fun i _ acc => if i &&& mask = 0 then acc + (v.get i).mass else acc) 0
  if kept < Scalar.zeroMass then throw (.fault .zeroProbability)
  else return ⟨Kernel.tabulate v.size fun i =>
    (if i &&& mask = 0 then v.get i else 0).divBy (Scalar.sqrt kept)⟩

end Guarded

end OpenQasm
