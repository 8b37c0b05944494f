import OpenQasm.Linear.SquareMatrix

/-!
# Gates

A gate acts on local qubits, local qubit `j` being bit `j` of its operator's basis index. It is
either an operator or a circuit: placed sub-gates that run in order on a number of qubits, each
with the list of the qubits it acts on, `targets[j]` receiving the sub-gate's qubit `j`.

* `Gate.resolve` collapses a gate into one operator. Each step is lifted to all the qubits of its
  circuit and multiplied from the left, so that steps take effect in the order they are listed.
* `placement` is the permutation that lifts a step: its targets, then the other qubits in
  ascending order.
* `rotation`, `controlledNot` and the Pauli operators are the primitives.

Model of the gate library and of resolving a gate. A circuit on more than `SquareMatrix.maxQubits`
qubits is refused with `unaddressable`, where the simulator gives no answer. Out of scope: the gates
that a program defines, which have become circuits by the time they come here
(`GateTable.instantiate`).
-/

namespace OpenQasm

mutual

/-- An operator, or a circuit on a number of local qubits. -/
inductive Gate (A : Type) where
  | operator (matrix : SquareMatrix A)
  | composite (qubits : Nat) (circuit : Circuit A)

/-- Placed gates, in the order in which they run. -/
inductive Circuit (A : Type) where
  | done
  | step (gate : Gate A) (targets : List Nat) (rest : Circuit A)

end

/-- The permutation that lifts an operator on `targets` to all of `qubits` qubits. -/
def placement {A : Type} (qubits : Nat) (targets : List Nat) (operator : SquareMatrix A) :
    Except AlgebraError (List Nat) :=
  match operator.qubits? with
  | none => .error (.invalidPermutation (.notPowerOfTwo operator.dim))
  | some width =>
    if targets.length ≠ width then .error (.dimensionMismatch width targets.length)
    else match targets.find? (qubits ≤ ·) with
      | some target => .error (.invalidPermutation (.targetOutside target qubits))
      | none => .ok (targets ++ (List.range qubits).filter fun q => !targets.contains q)

namespace Gate

section Resolution

variable {A : Type}

/-- The number of local qubits that a gate acts on. -/
def qubits : Gate A → Nat
  | operator matrix => matrix.qubits?.getD 0
  | composite qubits _ => qubits

/-- The circuit of a list of placed gates. -/
def circuit (steps : List (Gate A × List Nat)) : Circuit A :=
  steps.foldr (fun step rest => .step step.1 step.2 rest) .done

variable [Zero A] [One A] [Add A] [Mul A] [BEq A]

/-- One step of a circuit: `operator` placed on `targets`, after everything in `before`. -/
def advance (qubits : Nat) (before operator : SquareMatrix A) (targets : List Nat) :
    Except AlgebraError (SquareMatrix A) := do
  let positions ← placement qubits targets operator
  let lifted ← operator.redimension positions
  lifted.mul before

mutual

/-- The single operator that a gate amounts to. There has to be room for the operator of a circuit
before any of its steps is looked at. -/
def resolve : Gate A → Except AlgebraError (SquareMatrix A)
  | .operator matrix => .ok matrix
  | .composite qubits circuit => do
    let start ← SquareMatrix.identityOn qubits
    resolveAfter qubits start circuit

/-- The operator of running a circuit on `qubits` qubits after `before`. -/
def resolveAfter (qubits : Nat) (before : SquareMatrix A) :
    Circuit A → Except AlgebraError (SquareMatrix A)
  | .done => .ok before
  | .step gate targets rest => do
    let operator ← resolve gate
    let after ← advance qubits before operator targets
    resolveAfter qubits after rest

end

end Resolution

/-! ## Primitive operators -/

section Primitives

variable {R : Type} [Scalar R]

/-- The matrix with these rows, two entries each. -/
def square2 {A : Type} (a b c d : A) : SquareMatrix A := ⟨2, #[a, b, c, d], rfl⟩

/-- The identity on one qubit. -/
def identity : Gate (Amplitude R) := .operator (.identity 2)

/-- The bit flip. -/
def pauliX : Gate (Amplitude R) := .operator (square2 0 1 1 0)

/-- The bit and phase flip. -/
def pauliY : Gate (Amplitude R) := .operator (square2 0 ⟨0, -1⟩ ⟨0, 1⟩ 0)

/-- The phase flip. -/
def pauliZ : Gate (Amplitude R) := .operator (square2 1 0 0 (-1))

/-- The flip of qubit 1 where qubit 0 is set. -/
def controlledNot : Gate (Amplitude R) :=
  .operator ⟨4, #[1, 0, 0, 0,  0, 0, 0, 1,  0, 0, 1, 0,  0, 1, 0, 0], rfl⟩

/-- The matrix of `U(theta, phi, lambda)`, with determinant one. -/
def rotationMatrix (theta phi lambda : R) : SquareMatrix (Amplitude R) :=
  let s := Scalar.sin (Scalar.half theta)
  let c := Scalar.cos (Scalar.half theta)
  let sum := Amplitude.unit (Scalar.half (phi + lambda))
  let difference := Amplitude.unit (Scalar.half (lambda - phi))
  square2 (sum.times c).conj (-(difference.times s)) (difference.times s).conj (sum.times c)

/-- The rotation `U(theta, phi, lambda)` of one qubit. -/
def rotation (theta phi lambda : R) : Gate (Amplitude R) :=
  .operator (rotationMatrix theta phi lambda)

end Primitives

end Gate

end OpenQasm
