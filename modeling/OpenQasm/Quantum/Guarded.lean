import OpenQasm.Linear.Words
import OpenQasm.Quantum.Machine

/-!
# The machine on machine words

The operations of a machine with each step on words guarded: the offsets of registers are added up,
a register is read at an offset that was found in it, and an operator is applied by the guarded
kernel. A number of qubits that is asked for is not guarded; one that no word holds is reported as
the largest that does.

A request that the machine refuses is refused with the same fault; what a guard stops at is no
fault, and no request can ask for it.

A request takes the operator of a gate from `Gate.resolve`, where a circuit that there is no room
for is a fault as well (`unaddressable`). `Guarded.resolve` resolves the gate with words instead,
and a guard stops it there.
-/

namespace OpenQasm.Guarded

variable {α R : Type}

/-! ## Gates -/

section Resolution

variable [Zero α] [One α] [Add α] [Mul α] [BEq α]

mutual

/-- The single operator that a gate amounts to. -/
def resolve : Gate α → Guarded AlgebraError (SquareMatrix α)
  | .operator matrix => return matrix
  | .composite qubits circuit => do
    let start ← identityOn qubits
    resolveAfter qubits start circuit

/-- The operator of running a circuit on `qubits` qubits after `before`. -/
def resolveAfter (qubits : Nat) (before : SquareMatrix α) :
    Circuit α → Guarded AlgebraError (SquareMatrix α)
  | .done => return before
  | .step gate targets rest => do
    let operator ← resolve gate
    let positions ← ofExcept (placement qubits targets operator)
    let lifted ← redimension operator positions
    let after ← ofExcept (lifted.mul before)
    resolveAfter qubits after rest

end

end Resolution

/-! ## Requests -/

/-- A computation on a vector, as a step of a machine. -/
def algebra (x : Guarded AlgebraError α) : Guarded RunFault α := x.mapError (Halt.map .algebra)

/-- The number of qubits that are declared. -/
def qubits (m : Machine R) : Guarded RunFault Nat :=
  m.quantum.foldlM (fun total r => add total r.width) 0

/-- The bit of the basis index that an element of a quantum register takes. -/
def qubit (m : Machine R) (name : String) (index : Nat) : Guarded RunFault Nat := do
  let r ← ofExcept (m.quantumRegister name)
  ofExcept (Machine.checkIndex name index r.width)
  add r.offset index

/-- Set one bit of a classical register. -/
def setBit (m : Machine R) (r : ClassicalRegister) (index : Nat) (b : Bool) :
    Guarded RunFault (Machine R) := do
  inside index r.width
  return m.updateClassical r.name (·.setBit index b)

/-- Clear one bit of a classical register. -/
def resetClassicalBit (m : Machine R) (name : String) (index : Nat) :
    Guarded RunFault (Machine R) := do
  let r ← ofExcept (m.classicalRegister name)
  ofExcept (Machine.checkIndex name index r.width)
  setBit m r index false

variable [Scalar R]

/-- Declare a quantum register, all qubits `0`, on the bits above those in use. -/
def declareQuantum (m : Machine R) (name : String) (width : Nat) :
    Guarded RunFault (Machine R) := do
  ofExcept (m.checkFresh name width)
  let offset ← qubits m
  let requested := min (offset + width) Machine.countLimit
  if m.limit < requested then throw (.fault (.tooManyQubits requested m.limit))
  let fresh ← algebra (zeroState width)
  let vector ← tensor fresh m.vector
  return { m with vector, quantum := m.quantum ++ [⟨name, offset, width⟩] }

/-- Project the bits at `offset, ... offset + width - 1` onto zero. -/
def resetBits (m : Machine R) (offset width : Nat) : Guarded RunFault (Machine R) := do
  let vector ← algebra (reset m.vector offset width)
  return { m with vector }

/-- Project a quantum register onto zero. -/
def resetQuantum (m : Machine R) (name : String) : Guarded RunFault (Machine R) := do
  let r ← ofExcept (m.quantumRegister name)
  resetBits m r.offset r.width

/-- Project one qubit onto zero. -/
def resetQubit (m : Machine R) (name : String) (index : Nat) : Guarded RunFault (Machine R) := do
  let bit ← qubit m name index
  resetBits m bit 1

/-- Measure the bits at `offset, ... offset + width - 1` with the next draw. Answers their
values. -/
def measureBits (m : Machine R) (offset width : Nat) :
    Guarded RunFault (List Bool × Machine R) := do
  let (bits, vector) ← algebra (measure m.vector offset width (m.draws m.drawn))
  return (bits, { m with vector, drawn := m.drawn + 1 })

/-- Measure a quantum register into a classical register of the same width. -/
def measureRegister (m : Machine R) (source target : String) : Guarded RunFault (Machine R) := do
  let q ← ofExcept (m.quantumRegister source)
  let c ← ofExcept (m.classicalRegister target)
  if c.width ≠ q.width then
    throw (.fault (.sizeMismatch (.measureWidths q.width source c.width target)))
  let (bits, after) ← measureBits m q.offset q.width
  return after.updateClassical target fun r => { r with bits }

/-- Measure one qubit into one bit. -/
def measureBit (m : Machine R) (source : String) (sourceIndex : Nat) (target : String)
    (targetIndex : Nat) : Guarded RunFault (Machine R) := do
  let bit ← qubit m source sourceIndex
  let c ← ofExcept (m.classicalRegister target)
  ofExcept (Machine.checkIndex target targetIndex c.width)
  let (bits, after) ← measureBits m bit 1
  let outcome ← read bits.toArray 0
  setBit after c targetIndex outcome

/-- Apply a gate, its local qubit `j` acting on bit `targets[j]`. -/
def apply (m : Machine R) (gate : Gate (Amplitude R)) (targets : List Nat) :
    Guarded RunFault (Machine R) := do
  let total ← qubits m
  ofExcept (Machine.checkTargets total [] targets)
  let operator ← ofExcept (gate.resolve.mapError .algebra)
  let dim ← shiftLeft 1 targets.length
  if operator.dim ≠ dim then
    throw (.fault (.sizeMismatch (.operatorWidth operator.dim targets.length)))
  let entries ← applyOnTargets m.vector.entries operator.entries targets
  return { m with vector := ⟨entries⟩ }

end OpenQasm.Guarded
