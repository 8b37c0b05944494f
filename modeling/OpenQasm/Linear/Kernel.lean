import OpenQasm.Linear.BitIndex

/-!
# Kernels on flat arrays

Everything whose cost grows with the number of amplitudes. Vectors are arrays of entries;
matrices are square and stored row by row in one array. The entries come from any type with
addition, multiplication, a zero and a test for it. Sums run from the left, starting at zero.

* `matApply` is the matrix-vector product and `matMul` the matrix product, whose zero entries on
  the left are skipped.
* `applyOnTargets` applies a `2 ^ k` by `2 ^ k` matrix to `k` bits of the index of a vector. An
  entry of the result reads only the `2 ^ k` entries that share its other bits, so the operator
  on the whole space is never built.

Model of the hot loops of the simulator, each over all entries in order. Out of scope: the parallel
loops that take their place on large arrays, which compute every entry by the same sum, and the
words and bounds of the index arithmetic (`Linear/Words`).
-/

namespace OpenQasm.Kernel

variable {A : Type} [Zero A] [Add A] [Mul A]

/-- The entry at `i`, zero outside the array. -/
@[inline] def entry (xs : Array A) (i : Nat) : A := xs.getD i 0

/-- The sum `f 0 + f 1 + ... + f (n - 1)`, added from the left to zero. -/
@[inline] def sumTo (n : Nat) (f : Nat → A) : A := n.fold (fun i _ acc => acc + f i) 0

/-- The array `f 0, ... f (n - 1)`. -/
@[inline] def tabulate (n : Nat) (f : Nat → A) : Array A := Array.ofFn (n := n) fun i => f i

/-- The product of a `dim` by `dim` matrix and a vector. -/
@[specialize] def matApply (matrix : Array A) (dim : Nat) (vector : Array A) : Array A :=
  tabulate dim fun i => sumTo dim fun j => entry matrix (i * dim + j) * entry vector j

/-- The columns of row `i` that hold something. -/
@[specialize] def support [BEq A] (matrix : Array A) (dim i : Nat) : Array Nat :=
  (Array.range dim).filter fun k => !(entry matrix (i * dim + k) == 0)

/-- The product of two `dim` by `dim` matrices. -/
@[specialize] def matMul [BEq A] (a b : Array A) (dim : Nat) : Array A :=
  let supports := Array.ofFn (n := dim) fun i => support a dim i
  tabulate (dim * dim) fun t =>
    let i := t / dim
    let j := t % dim
    (supports.getD i #[]).foldl
      (fun acc k => acc + entry a (i * dim + k) * entry b (k * dim + j)) 0

/-- Apply a matrix to the bits `targets` of the index of a vector. Bit `j` of a row or column
index of the matrix is bit `targets[j]` of a vector index. -/
@[specialize] def applyOnTargets (vector matrix : Array A) (targets : List Nat) : Array A :=
  let dim := Nat.pow 2 targets.length
  let mask := BitIndex.mask targets
  let offsets := Array.ofFn (n := dim) fun j => BitIndex.spread targets j
  tabulate vector.size fun i =>
    let base := BitIndex.without mask i
    let row := BitIndex.gather targets i
    sumTo dim fun j => entry matrix (row * dim + j) * entry vector (base ||| offsets.getD j 0)

end OpenQasm.Kernel
