import OpenQasm.Quantum.Gate
import OpenQasm.Steps

/-!
# What is built while a gate is resolved

`Gate.resolve` says what a gate amounts to. Here the same steps note the dimension of every matrix
that is built on the way, in the order in which they are built and also when a later step fails.

* `Building.redimension` notes the size of the space first, whether or not an operator can be lifted
  to it, and then the three matrices of the lift.
* `Gate.dimensions` is what has been noted when a gate is resolved, or cannot be.

Model of what `Gate.resolve` allocates. The dimension of a circuit is noted before it is asked
whether there is room for it. Out of scope: the vectors of indices that a lift keeps for its rows.
-/

namespace OpenQasm

/-- Steps that note dimensions, up to an error. -/
abbrev Building (α : Type) := Steps AlgebraError (List Nat) α

namespace Building

open Steps (consult)

variable {A : Type}

/-- Note a dimension. -/
def note (dimension : Nat) : Building Unit := modify (· ++ [dimension])

variable [Zero A] [One A] [Add A] [Mul A] [BEq A]

/-- Lift an operator: an identity for the bits that are added, the padded operator, the lift. -/
def redimension (operator : SquareMatrix A) (positions : List Nat) :
    Building (SquareMatrix A) := do
  let full := Nat.pow 2 positions.length
  note full
  let lifted ← consult fun _ => operator.redimension positions
  note (full / operator.dim)
  note (full / operator.dim * operator.dim)
  note lifted.dim
  return lifted

mutual

/-- Resolve a gate. -/
def resolve : Gate A → Building (SquareMatrix A)
  | .operator matrix => do
    note matrix.dim
    return matrix
  | .composite qubits circuit => do
    note (Nat.pow 2 qubits)
    let start ← consult fun _ => SquareMatrix.identityOn qubits
    resolveAfter qubits start circuit

/-- Run a circuit on `qubits` qubits after `before`. -/
def resolveAfter (qubits : Nat) (before : SquareMatrix A) :
    Circuit A → Building (SquareMatrix A)
  | .done => return before
  | .step gate targets rest => do
    let operator ← resolve gate
    let positions ← consult fun _ => placement qubits targets operator
    let lifted ← redimension operator positions
    let after ← consult fun _ => lifted.mul before
    note after.dim
    resolveAfter qubits after rest

end

end Building

namespace Gate

variable {A : Type} [Zero A] [One A] [Add A] [Mul A] [BEq A]

/-- The dimensions of the matrices that are built while a gate is resolved, up to an error. -/
def dimensions (gate : Gate A) : List Nat :=
  match Building.resolve gate [] with
  | .ok _ noted | .error _ noted => noted

end Gate

/-! ## Circuits inside -/

section Widths

variable {A : Type}

mutual

/-- The numbers of qubits of all circuits inside a gate. -/
def Gate.widths : Gate A → List Nat
  | .operator _ => []
  | .composite qubits circuit => qubits :: circuit.widths

/-- The numbers of qubits of all circuits inside the steps of a circuit. -/
def Circuit.widths : Circuit A → List Nat
  | .done => []
  | .step gate _ rest => gate.widths ++ rest.widths

end

end Widths

end OpenQasm
