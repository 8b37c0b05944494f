/-!
# Errors of the vector and operator algebra

Each constructor names a precondition that an operation found broken.

Model of the errors of vectors and operators and of their texts. All but one are answers of the
simulator. `unaddressable` stands for a computation that ends without one: it asks for more memory
than an address space has, or counts with a word that overflows.
-/

namespace OpenQasm

/-- Why a list of positions cannot place an operator. -/
inductive PlacementFault where
  | notPowerOfTwo (dimension : Nat)
  | targetOutside (target qubits : Nat)
  | notEmbeddable (dimension qubits : Nat)
  | notPermutation (positions : List Nat) (qubits : Nat)
deriving DecidableEq, Repr

/-- A broken precondition of the vector and operator algebra. -/
inductive AlgebraError where
  | dimensionMismatch (expected found : Nat)
  | notSquare (entries : Nat)
  | zeroProbability
  | invalidPermutation (fault : PlacementFault)
  | tooWide (qubits : Nat)
  | outOfRange (offset width qubits : Nat)
  | unaddressable (qubits : Nat)
deriving DecidableEq, Repr

/-- The text of a placement fault. -/
def PlacementFault.message : PlacementFault → String
  | .notPowerOfTwo dimension => s!"dimension {dimension} is not a power of two"
  | .targetOutside target qubits => s!"target {target} outside a {qubits}-qubit gate"
  | .notEmbeddable dimension qubits =>
    s!"a {dimension}x{dimension} operator cannot be embedded in {qubits} qubits"
  | .notPermutation positions qubits =>
    let listed := ", ".intercalate (positions.map toString)
    s!"[{listed}] is not a permutation of 0..{qubits}"

/-- The text of an error of the algebra. -/
def AlgebraError.message : AlgebraError → String
  | .dimensionMismatch expected found =>
    s!"dimension mismatch: expected {expected}, found {found}"
  | .notSquare entries => s!"{entries} entries cannot form a square matrix"
  | .zeroProbability => "measured a zero-probability state"
  | .invalidPermutation fault => "invalid permutation: " ++ fault.message
  | .tooWide qubits => s!"a {qubits}-qubit state is too large to allocate"
  | .outOfRange offset width qubits =>
    s!"{width} bits at offset {offset} do not fit a {qubits}-qubit state"
  | .unaddressable qubits => s!"a {qubits}-qubit operator has no place in an address space"

end OpenQasm
