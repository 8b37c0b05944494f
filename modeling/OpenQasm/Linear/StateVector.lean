import OpenQasm.Amplitude
import OpenQasm.Linear.Kernel
import OpenQasm.Linear.Error

/-!
# State vectors

One entry per basis state. A vector of `2 ^ n` entries describes `n` qubits, qubit `j` being bit
`j` of the index; a few operations also make sense for other lengths.

* `tensor` is the Kronecker product; the right factor takes the low bits of the index.
* `measure` reads the bits `offset, ... offset + width - 1`: the masses of the outcomes are
  added up, a uniform draw selects one of them, the rest of the vector is cleared and what
  remains is divided by the square root of its mass. Outcomes whose mass is below
  `Scalar.zeroMass` are never selected.
* `reset` is the projection onto outcome `0`; it is not a physical reset and fails where that
  outcome has no mass.

Model of the vectors that describe a state. Out of scope: the parallel sums that take the place of
`mass` on large vectors, which may round differently over doubles.
-/

namespace OpenQasm

/-- The entries of a vector, by basis index. -/
structure StateVector (A : Type) where
  entries : Array A
deriving DecidableEq

namespace StateVector

/-- The widest state whose amplitudes, sixteen bytes each, fit a signed 64-bit address space. -/
def maxQubits : Nat := 58

section Algebra

variable {A : Type}

/-- The number of entries. -/
def size (v : StateVector A) : Nat := v.entries.size

/-- The number of qubits that a vector of `2 ^ n` entries describes. -/
def qubits (v : StateVector A) : Nat := BitIndex.trailingZeros v.size

/-- The entry at `i`, zero outside the vector. -/
def get [Zero A] (v : StateVector A) (i : Nat) : A := Kernel.entry v.entries i

/-- Replace the entry at `i`, if there is one. -/
def set (v : StateVector A) (i : Nat) (a : A) : StateVector A := ⟨v.entries.setIfInBounds i a⟩

/-- The zero vector. -/
def zeros [Zero A] (size : Nat) : StateVector A := ⟨Array.replicate size 0⟩

/-- The state of `width` qubits that are all `0`. -/
def zeroState [Zero A] [One A] (width : Nat) : Except AlgebraError (StateVector A) :=
  if maxQubits < width then .error (.tooWide width)
  else .ok ((zeros (Nat.pow 2 width)).set 0 1)

/-- The Kronecker product: entry `i * w.size + j` is `v i * w j`. -/
@[specialize] def tensor [Zero A] [Mul A] (v w : StateVector A) : StateVector A :=
  ⟨Kernel.tabulate (v.size * w.size) fun t => v.get (t / w.size) * w.get (t % w.size)⟩

/-- The sum of two vectors of one size. -/
def add [Zero A] [Add A] (v w : StateVector A) : Except AlgebraError (StateVector A) :=
  if w.size = v.size then .ok ⟨Kernel.tabulate v.size fun i => v.get i + w.get i⟩
  else .error (.dimensionMismatch v.size w.size)

end Algebra

variable {R : Type} [Scalar R]

/-- The mass of each entry. -/
def masses (v : StateVector (Amplitude R)) : List R := v.entries.toList.map Amplitude.mass

/-- The mass of all entries together. -/
@[specialize] def mass (v : StateVector (Amplitude R)) : R :=
  Kernel.sumTo v.size fun i => (v.get i).mass

/-- Divide every entry by a real number. -/
@[specialize] def divBy (v : StateVector (Amplitude R)) (x : R) : StateVector (Amplitude R) :=
  ⟨v.entries.map (·.divBy x)⟩

/-- Scale a vector to mass one. -/
def normalize (v : StateVector (Amplitude R)) : Except AlgebraError (StateVector (Amplitude R)) :=
  let m := v.mass
  if m < Scalar.zeroMass then .error .zeroProbability else .ok (v.divBy (Scalar.sqrt m))

/-- Whether two vectors have one size and differ nowhere by more than `tolerance`. -/
def near (tolerance : R) (v w : StateVector (Amplitude R)) : Bool :=
  v.size == w.size && (List.range v.size).all fun i => (v.get i).near tolerance (w.get i)

/-! ## Measurement -/

/-- The bits at `offset, ... offset + width - 1` must be bits of the index. -/
def checkRange {A : Type} (v : StateVector A) (offset width : Nat) : Except AlgebraError Unit :=
  if v.qubits < offset + width then .error (.outOfRange offset width v.qubits) else .ok ()

/-- The mass of each of the `2 ^ width` outcomes of reading `width` bits at `offset`. -/
@[specialize] def outcomeMasses (v : StateVector (Amplitude R)) (offset width : Nat) : Array R :=
  v.size.fold
    (fun i _ acc => acc.modify (BitIndex.field offset width i) (· + (v.get i).mass))
    (Array.replicate (Nat.pow 2 width) 0)

/-- Keep the entries that carry `outcome` in the bits at `offset`, divided by `norm`. -/
@[specialize] def collapse (v : StateVector (Amplitude R)) (offset width outcome : Nat)
    (norm : R) : StateVector (Amplitude R) :=
  ⟨Kernel.tabulate v.size fun i =>
    (if BitIndex.field offset width i = outcome then v.get i else 0).divBy norm⟩

/-- The position of the last mass that is not faint. -/
def lastSolid? (masses : List R) : Option Nat :=
  masses.zipIdx.foldl (fun last (m, k) => if Scalar.zeroMass ≤ m then some k else last) none

/-- The first mass that is not faint and whose running total, from `acc` on, exceeds `draw`. -/
def firstAbove? (draw : R) : List R → Nat → R → Option Nat
  | [], _, _ => none
  | m :: ms, k, acc =>
    if Scalar.zeroMass ≤ m ∧ draw < acc + m then some k
    else firstAbove? draw ms (k + 1) (acc + m)

/-- The outcome that the uniform draw `u` selects. Rounding can leave the scaled draw above the
last running total; then the last outcome that is not faint is taken. -/
def selectOutcome (masses : List R) (u : R) : Except AlgebraError Nat :=
  let total := masses.foldl (· + ·) 0
  if total < Scalar.zeroMass then .error .zeroProbability
  else match lastSolid? masses with
    | none => .error .zeroProbability
    | some last => .ok ((firstAbove? (u * total) masses 0 0).getD last)

/-- What a measurement answers: the outcome and the collapsed vector. -/
structure Measured (R : Type) where
  outcome : Nat
  after : StateVector (Amplitude R)

/-- Measure the bits at `offset, ... offset + width - 1` with the uniform draw `u`. -/
@[specialize] def measure (v : StateVector (Amplitude R)) (offset width : Nat) (u : R) :
    Except AlgebraError (Measured R) := do
  v.checkRange offset width
  let masses := v.outcomeMasses offset width
  let outcome ← selectOutcome masses.toList u
  return ⟨outcome, v.collapse offset width outcome (Scalar.sqrt (masses.getD outcome 0))⟩

/-- The mass of the entries whose bits at `offset, ... offset + width - 1` are all zero. -/
@[specialize] def clearMass (v : StateVector (Amplitude R)) (offset width : Nat) : R :=
  v.size.fold
    (fun i _ acc => if BitIndex.field offset width i = 0 then acc + (v.get i).mass else acc) 0

/-- Project the bits at `offset, ... offset + width - 1` onto zero and scale to mass one. -/
@[specialize] def reset (v : StateVector (Amplitude R)) (offset width : Nat) :
    Except AlgebraError (StateVector (Amplitude R)) := do
  v.checkRange offset width
  let kept := v.clearMass offset width
  if kept < Scalar.zeroMass then .error .zeroProbability
  else return v.collapse offset width 0 (Scalar.sqrt kept)

end StateVector

end OpenQasm
