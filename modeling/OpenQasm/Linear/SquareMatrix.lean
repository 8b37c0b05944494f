import OpenQasm.Linear.StateVector

/-!
# Square matrices

Operators on a space of any positive dimension, stored row by row.

* `mul` and `tensor` skip the zero entries of their left factor.
* `redimension` lifts an operator of dimension `2 ^ k` to `n` qubits: it is first padded with the
  identity on the high bits, then bit `i` of every row and column index is moved to `positions[i]`.
* `identityOn` is where a circuit starts, and where it ends if there is no room for its operator.

Model of the operators of the simulator. Dimensions are numbers of any size here. They stand for the
words that a machine counts with as long as there is room for the matrix, which is so up to
`maxQubits` qubits; a lift then shifts by no more than twice as many. The steps with words are those
of `Linear/Words`, and `Proofs/Room` compares the two.

Out of scope: operators of dimension zero.
-/

namespace OpenQasm

/-- A `dim` by `dim` matrix, row by row. -/
structure SquareMatrix (A : Type) where
  dim : Nat
  entries : Array A
  size_entries : entries.size = dim * dim

namespace SquareMatrix

variable {A : Type}

/-- The matrix with entry `f row column`. -/
@[inline] def ofFn (dim : Nat) (f : Nat → Nat → A) : SquareMatrix A :=
  ⟨dim, Kernel.tabulate (dim * dim) fun t => f (t / dim) (t % dim), by simp [Kernel.tabulate]⟩

/-- The side of a square of `count` cells. -/
def side? (count : Nat) : Option Nat := (List.range (count + 1)).find? fun d => d * d == count

/-- The matrix with these entries, whose number must be a square. -/
def ofEntries (entries : Array A) : Except AlgebraError (SquareMatrix A) :=
  match side? entries.size with
  | some dim =>
    if h : entries.size = dim * dim then .ok ⟨dim, entries, h⟩
    else .error (.notSquare entries.size)
  | none => .error (.notSquare entries.size)

/-- The entry at a row and column. -/
def get [Zero A] (m : SquareMatrix A) (row column : Nat) : A :=
  Kernel.entry m.entries (row * m.dim + column)

/-- Replace the entry at a row and column. -/
def set (m : SquareMatrix A) (row column : Nat) (a : A) : SquareMatrix A :=
  ⟨m.dim, m.entries.setIfInBounds (row * m.dim + column) a, by simp [m.size_entries]⟩

/-- The zero matrix. -/
def zero [Zero A] (dim : Nat) : SquareMatrix A := ofFn dim fun _ _ => 0

/-- The identity matrix. -/
def identity [Zero A] [One A] (dim : Nat) : SquareMatrix A :=
  ofFn dim fun i j => if i = j then 1 else 0

/-- The widest operator whose entries, sixteen bytes each, fit a signed 64-bit address space. The
number of its entries is no word of 64 bits from 32 qubits on, its dimension is none from 64 on. -/
def maxQubits : Nat := 29

/-- The identity on some qubits, if an address space can hold it. The error is no answer of the
simulator: up to 63 qubits it stops before the identity is there. From 64 on the shift that counts
the dimension overflows; if overflow is checked it stops at the shift, and if not, what follows is
out of scope. -/
def identityOn [Zero A] [One A] (qubits : Nat) : Except AlgebraError (SquareMatrix A) :=
  if maxQubits < qubits then .error (.unaddressable qubits)
  else .ok (identity (Nat.pow 2 qubits))

/-- The number of qubits acted on, if the dimension is a power of two. -/
def qubits? (m : SquareMatrix A) : Option Nat := BitIndex.exactLog2? m.dim

/-- The conjugate transpose, for a given conjugation. -/
def adjoint [Zero A] (conj : A → A) (m : SquareMatrix A) : SquareMatrix A :=
  ofFn m.dim fun i j => conj (m.get j i)

variable [Zero A] [Add A] [Mul A]

/-- The product of two matrices of one dimension. -/
@[specialize] def mul [BEq A] (a b : SquareMatrix A) : Except AlgebraError (SquareMatrix A) :=
  if b.dim = a.dim then
    .ok ⟨a.dim, Kernel.matMul a.entries b.entries a.dim, by simp [Kernel.matMul, Kernel.tabulate]⟩
  else .error (.dimensionMismatch a.dim b.dim)

/-- The product with a vector of the matrix's dimension. -/
@[specialize] def apply (m : SquareMatrix A) (v : StateVector A) :
    Except AlgebraError (StateVector A) :=
  if v.size = m.dim then .ok ⟨Kernel.matApply m.entries m.dim v.entries⟩
  else .error (.dimensionMismatch m.dim v.size)

omit [Add A] in
/-- The Kronecker product: entry `(i * b.dim + k, j * b.dim + l)` is `a i j * b k l`. -/
@[specialize] def tensor [BEq A] (a b : SquareMatrix A) : SquareMatrix A :=
  ofFn (a.dim * b.dim) fun i j =>
    let x := a.get (i / b.dim) (j / b.dim)
    if x == 0 then 0 else x * b.get (i % b.dim) (j % b.dim)

/-- Whether a list of positions is a permutation of `0, ... positions.length - 1`. -/
def isPermutation (positions : List Nat) : Bool :=
  (List.range positions.length).all positions.contains

omit [Add A] in
/-- Lift an operator to `positions.length` qubits, its bit `i` becoming bit `positions[i]`. -/
@[specialize] def redimension [One A] [BEq A] (m : SquareMatrix A) (positions : List Nat) :
    Except AlgebraError (SquareMatrix A) :=
  let qubits := positions.length
  let full := Nat.pow 2 qubits
  if m.qubits?.isNone ∨ full < m.dim then
    .error (.invalidPermutation (.notEmbeddable m.dim qubits))
  else if isPermutation positions then
    let embedded := (identity (full / m.dim)).tensor m
    let origin := Kernel.tabulate full (BitIndex.gather positions)
    .ok <| ofFn full fun i j =>
      let x := embedded.get (origin.getD i 0) (origin.getD j 0)
      if x == 0 then 0 else x
  else .error (.invalidPermutation (.notPermutation positions qubits))

end SquareMatrix

namespace SquareMatrix

variable {R : Type} [Scalar R]

/-- Whether two matrices have one dimension and differ nowhere by more than `tolerance`. -/
def near (tolerance : R) (a b : SquareMatrix (Amplitude R)) : Bool :=
  a.dim == b.dim && (List.range a.entries.size).all fun t =>
    (Kernel.entry a.entries t).near tolerance (Kernel.entry b.entries t)

/-- Whether the product with the adjoint is the identity, within `tolerance`. -/
def isUnitary (tolerance : R) (m : SquareMatrix (Amplitude R)) : Bool :=
  match m.mul (m.adjoint Amplitude.conj) with
  | .ok product => product.near tolerance (identity m.dim)
  | .error _ => false

end SquareMatrix

end OpenQasm
