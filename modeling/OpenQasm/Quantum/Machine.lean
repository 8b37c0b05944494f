import OpenQasm.Linear.StateVector
import OpenQasm.Quantum.Error
import OpenQasm.Quantum.Gate
import OpenQasm.Quantum.Register

/-!
# The simulated machine

One state vector for all qubits, the registers that name them, the classical registers, and a
source of uniform draws.

Quantum registers take consecutive bits of the basis index in the order of their declaration, the
first register the lowest. Every operation answers the whole machine that it leaves, so one that
fails changes nothing. A measurement takes one draw, and only when it succeeds; nothing else does.

Model of the state of a simulation and of its operations: declaring registers, looking them up,
applying a gate, measuring and resetting. The generator of random numbers is the stream of its draws
and how many have been taken. Out of scope: where the draws come from (`Random`), the listing and
the snapshot of a state (`Report`), logging.
-/

namespace OpenQasm

/-- A machine over scalars `R`. `draws k` is the `k`-th uniform draw and `drawn` of them are
used. -/
structure Machine (R : Type) where
  vector : StateVector (Amplitude R)
  quantum : List QuantumRegister
  classical : List ClassicalRegister
  draws : Nat → R
  drawn : Nat
  limit : Nat

namespace Machine

variable {R : Type} [Scalar R]

/-- A machine without registers: a single amplitude of one. No more than `maxQubits` qubits, and
no more than a state vector can describe, can be declared. -/
def initial (maxQubits : Nat) (draws : Nat → R) : Machine R where
  vector := ⟨#[1]⟩
  quantum := []
  classical := []
  draws := draws
  drawn := 0
  limit := min maxQubits StateVector.maxQubits

section Registers

omit [Scalar R]

/-- The number of qubits that are declared. -/
def qubits (m : Machine R) : Nat := QuantumRegister.totalWidth m.quantum

/-- The quantum register of a name. -/
def quantumRegister (m : Machine R) (name : String) : Except RunFault QuantumRegister :=
  match m.quantum.find? (·.name == name) with
  | some r => .ok r
  | none => .error (.undefinedRegister name)

/-- The classical register of a name. -/
def classicalRegister (m : Machine R) (name : String) : Except RunFault ClassicalRegister :=
  match m.classical.find? (·.name == name) with
  | some r => .ok r
  | none => .error (.undefinedRegister name)

/-- Whether a name is that of a quantum register. -/
def isQuantum (m : Machine R) (name : String) : Bool := m.quantum.any (·.name == name)

/-- Whether a name is that of a classical register. -/
def isClassical (m : Machine R) (name : String) : Bool := m.classical.any (·.name == name)

/-- An index must lie inside the register that it is applied to. -/
def checkIndex (name : String) (index width : Nat) : Except RunFault Unit :=
  if width ≤ index then .error (.indexOutOfRange name index width) else .ok ()

/-- The bit of the basis index that an element of a quantum register takes. -/
def qubit (m : Machine R) (name : String) (index : Nat) : Except RunFault Nat := do
  let r ← m.quantumRegister name
  checkIndex name index r.width
  return r.offset + index

/-- A new register must have a bit and a name of its own. -/
def checkFresh (m : Machine R) (name : String) (width : Nat) : Except RunFault Unit :=
  if width = 0 then .error (.emptyRegister name)
  else if m.isQuantum name ∨ m.isClassical name then .error (.duplicateRegister name)
  else .ok ()

/-- Declare a classical register, all bits clear. -/
def declareClassical (m : Machine R) (name : String) (width : Nat) :
    Except RunFault (Machine R) := do
  m.checkFresh name width
  if ClassicalRegister.maxWidth < width then throw (.unaddressable name width)
  return { m with classical := m.classical ++ [⟨name, List.replicate width false⟩] }

/-- Change the classical register of a name. -/
def updateClassical (m : Machine R) (name : String)
    (change : ClassicalRegister → ClassicalRegister) : Machine R :=
  { m with classical := m.classical.map fun r => if r.name == name then change r else r }

/-- Clear a classical register. -/
def resetClassical (m : Machine R) (name : String) : Except RunFault (Machine R) := do
  discard (m.classicalRegister name)
  return m.updateClassical name .cleared

/-- Clear one bit of a classical register. -/
def resetClassicalBit (m : Machine R) (name : String) (index : Nat) :
    Except RunFault (Machine R) := do
  let r ← m.classicalRegister name
  checkIndex name index r.width
  return m.updateClassical name (·.setBit index false)

end Registers

/-! ## Operations on the state vector -/

/-- The largest number that a count of qubits is reported as. -/
def countLimit : Nat := UInt64.size - 1

/-- Declare a quantum register, all qubits `0`, on the bits above those in use. -/
def declareQuantum (m : Machine R) (name : String) (width : Nat) :
    Except RunFault (Machine R) := do
  m.checkFresh name width
  let requested := min (m.qubits + width) countLimit
  if m.limit < requested then throw (.tooManyQubits requested m.limit)
  let fresh ← (StateVector.zeroState width).mapError .algebra
  return { m with
    vector := fresh.tensor m.vector
    quantum := m.quantum ++ [⟨name, m.qubits, width⟩] }

/-- Project a quantum register onto zero. -/
def resetQuantum (m : Machine R) (name : String) : Except RunFault (Machine R) := do
  let r ← m.quantumRegister name
  let vector ← (m.vector.reset r.offset r.width).mapError .algebra
  return { m with vector }

/-- Project one qubit onto zero. -/
def resetQubit (m : Machine R) (name : String) (index : Nat) : Except RunFault (Machine R) := do
  let bit ← m.qubit name index
  let vector ← (m.vector.reset bit 1).mapError .algebra
  return { m with vector }

/-- Measure the bits at `offset, ... offset + width - 1` with the next draw. Answers the
outcome. -/
def measureBits (m : Machine R) (offset width : Nat) : Except RunFault (Nat × Machine R) := do
  let measured ← (m.vector.measure offset width (m.draws m.drawn)).mapError .algebra
  return (measured.outcome, { m with vector := measured.after, drawn := m.drawn + 1 })

/-- Measure a quantum register into a classical register of the same width. -/
def measure (m : Machine R) (source target : String) : Except RunFault (Machine R) := do
  let q ← m.quantumRegister source
  let c ← m.classicalRegister target
  if c.width ≠ q.width then
    throw (.sizeMismatch (.measureWidths q.width source c.width target))
  let (outcome, after) ← m.measureBits q.offset q.width
  return after.updateClassical target fun r => { r with bits := BitIndex.bits q.width outcome }

/-- Measure one qubit into one bit. -/
def measureBit (m : Machine R) (source : String) (sourceIndex : Nat) (target : String)
    (targetIndex : Nat) : Except RunFault (Machine R) := do
  let bit ← m.qubit source sourceIndex
  let c ← m.classicalRegister target
  checkIndex target targetIndex c.width
  let (outcome, after) ← m.measureBits bit 1
  return after.updateClassical target (·.setBit targetIndex (outcome.testBit 0))

omit [Scalar R] in
/-- The qubits an operation acts on must exist and differ. -/
def checkTargets (total : Nat) : (seen : List Nat) → List Nat → Except RunFault Unit
  | _, [] => .ok ()
  | seen, q :: rest =>
    if total ≤ q then .error (.sizeMismatch (.qubitOutside q total))
    else if seen.contains q then .error (.duplicateQubit q)
    else checkTargets total (seen ++ [q]) rest

/-- Apply a gate, its local qubit `j` acting on bit `targets[j]`. -/
def apply (m : Machine R) (gate : Gate (Amplitude R)) (targets : List Nat) :
    Except RunFault (Machine R) := do
  checkTargets m.qubits [] targets
  let operator ← gate.resolve.mapError .algebra
  if operator.dim ≠ Nat.pow 2 targets.length then
    throw (.sizeMismatch (.operatorWidth operator.dim targets.length))
  return { m with vector := ⟨Kernel.applyOnTargets m.vector.entries operator.entries targets⟩ }

end Machine

end OpenQasm
