import OpenQasm.Quantum.Machine
import OpenQasm.Steps

/-!
# Machine operations step by step

`Machine` says what an operation leaves when it succeeds. Here the same operations are procedures on
one machine that is changed in place: checks and changes in the order in which they are made.

* `Procedure.draw` takes a draw, and no other step does.
* `measureBits` and `projectBits` clear the amplitudes that are not kept, then scale the others.
* `modifyClassical` looks its register up, also where that has been done before the state vector
  was changed.

Model of the order in which an operation checks and assigns. Out of scope: the steps inside of a
kernel, which leaves its argument alone and answers a new array.
-/

namespace OpenQasm

/-- Keep the entries that carry `outcome` in the bits at `offset` and clear the others. -/
@[specialize] def StateVector.keep {R : Type} [Scalar R] (v : StateVector (Amplitude R))
    (offset width outcome : Nat) : StateVector (Amplitude R) :=
  ⟨Kernel.tabulate v.size fun i =>
    if BitIndex.field offset width i = outcome then v.get i else 0⟩

/-- Steps that change a machine, up to a fault. -/
abbrev Procedure (R α : Type) := Steps RunFault (Machine R) α

namespace Procedure

open Steps (consult)

variable {R : Type}

/-- Take the next draw. -/
def draw : Procedure R R :=
  modifyGet fun m => (m.draws m.drawn, { m with drawn := m.drawn + 1 })

/-- Change the state vector. -/
def modifyVector (change : StateVector (Amplitude R) → StateVector (Amplitude R)) :
    Procedure R Unit :=
  modify fun m => { m with vector := change m.vector }

/-- Change the classical register of a name, which must be there. -/
def modifyClassical (name : String) (change : ClassicalRegister → ClassicalRegister) :
    Procedure R Unit := do
  let _ ← consult (·.classicalRegister name)
  modify (·.updateClassical name change)

/-! ## Classical registers -/

/-- Declare a classical register. -/
def declareClassical (name : String) (width : Nat) : Procedure R Unit := do
  consult (·.checkFresh name width)
  if ClassicalRegister.maxWidth < width then throw (.unaddressable name width)
  modify fun m => { m with classical := m.classical ++ [⟨name, List.replicate width false⟩] }

/-- Clear a classical register. -/
def resetClassical (name : String) : Procedure R Unit := modifyClassical name .cleared

/-- Clear one bit of a classical register. -/
def resetClassicalBit (name : String) (index : Nat) : Procedure R Unit := do
  let r ← consult (·.classicalRegister name)
  consult fun _ => Machine.checkIndex name index r.width
  modifyClassical name (·.setBit index false)

variable [Scalar R]

/-! ## Declarations and gates -/

/-- Declare a quantum register: the vector grows, then the register is listed. -/
def declareQuantum (name : String) (width : Nat) : Procedure R Unit := do
  consult (·.checkFresh name width)
  let m ← get
  let requested := min (m.qubits + width) Machine.countLimit
  if m.limit < requested then throw (.tooManyQubits requested m.limit)
  let fresh ← consult fun _ => (StateVector.zeroState width).mapError .algebra
  modifyVector fresh.tensor
  modify fun now => { now with quantum := now.quantum ++ [⟨name, m.qubits, width⟩] }

/-- Apply a gate to bits of the basis index. -/
def apply (gate : Gate (Amplitude R)) (targets : List Nat) : Procedure R Unit := do
  consult fun m => Machine.checkTargets m.qubits [] targets
  let operator ← consult fun _ => gate.resolve.mapError .algebra
  if operator.dim ≠ Nat.pow 2 targets.length then
    throw (.sizeMismatch (.operatorWidth operator.dim targets.length))
  modifyVector fun v => ⟨Kernel.applyOnTargets v.entries operator.entries targets⟩

/-! ## Measurements -/

/-- The bits at `offset, ... offset + width - 1` must be bits of the index. -/
def checkRange (offset width : Nat) : Procedure R Unit :=
  consult fun m => (m.vector.checkRange offset width).mapError .algebra

/-- Measure bits of the basis index. Answers the outcome. -/
def measureBits (offset width : Nat) : Procedure R Nat := do
  checkRange offset width
  let m ← get
  let masses := m.vector.outcomeMasses offset width
  let total := masses.toList.foldl (· + ·) 0
  if total < Scalar.zeroMass then throw (.algebra .zeroProbability)
  match StateVector.lastSolid? masses.toList with
  | none => throw (.algebra .zeroProbability)
  | some last =>
    let u ← draw
    let outcome := (StateVector.firstAbove? (u * total) masses.toList 0 0).getD last
    modifyVector (·.keep offset width outcome)
    modifyVector (·.divBy (Scalar.sqrt (masses.getD outcome 0)))
    return outcome

/-- Measure a quantum register into a classical register of the same width. -/
def measure (source target : String) : Procedure R Unit := do
  let q ← consult (·.quantumRegister source)
  let c ← consult (·.classicalRegister target)
  if c.width ≠ q.width then throw (.sizeMismatch (.measureWidths q.width source c.width target))
  let outcome ← measureBits q.offset q.width
  modifyClassical target fun r => { r with bits := BitIndex.bits q.width outcome }

/-- Measure one qubit into one bit. -/
def measureBit (source : String) (sourceIndex : Nat) (target : String) (targetIndex : Nat) :
    Procedure R Unit := do
  let bit ← consult (·.qubit source sourceIndex)
  let c ← consult (·.classicalRegister target)
  consult fun _ => Machine.checkIndex target targetIndex c.width
  let outcome ← measureBits bit 1
  modifyClassical target (·.setBit targetIndex (outcome.testBit 0))

/-! ## Projections -/

/-- Project bits of the basis index onto zero. -/
def projectBits (offset width : Nat) : Procedure R Unit := do
  checkRange offset width
  let m ← get
  let kept := m.vector.clearMass offset width
  if kept < Scalar.zeroMass then throw (.algebra .zeroProbability)
  modifyVector (·.keep offset width 0)
  modifyVector (·.divBy (Scalar.sqrt kept))

/-- Project a quantum register onto zero. -/
def resetQuantum (name : String) : Procedure R Unit := do
  let r ← consult (·.quantumRegister name)
  projectBits r.offset r.width

/-- Project one qubit onto zero. -/
def resetQubit (name : String) (index : Nat) : Procedure R Unit := do
  let bit ← consult (·.qubit name index)
  projectBits bit 1

end Procedure

end OpenQasm
