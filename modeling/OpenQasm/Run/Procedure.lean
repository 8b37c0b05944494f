import OpenQasm.Quantum.Procedure
import OpenQasm.Run.Executor

/-!
# Statements step by step

`Executor.execute` says what a statement leaves, also when it fails. Here a statement is a procedure
on one executor that is changed in place, made of the procedures of its machine: nothing but the
order of their steps decides what a failure leaves.
-/

namespace OpenQasm

/-- Steps that change an executor, up to an error. -/
abbrev Activity (R α : Type) := Steps RunError (Executor R) α

namespace Activity

open Steps (consult)

variable {R α : Type}

/-- Change the machine of the executor. -/
def onMachine (p : Procedure R α) : Activity R α :=
  Steps.onPart Executor.machine (fun x machine => { x with machine }) .bare p

variable [Scalar R]

/-- Carry out a gate call: one application for each repetition, which instantiates the gate anew. -/
def call (c : GateCall) : Activity R Unit := do
  let parameters ← consult fun _ => GateTable.values [] c.passed
  let bits ← consult fun x => (c.operands.mapM x.machine.operandBits).mapError .bare
  let count ← consult fun _ => (Machine.repetitions c.gate c.operands bits).mapError .bare
  (List.range count).forM fun k => do
    let gate ← consult fun x => x.gates.instantiate c.gate parameters
    onMachine (.apply gate (Machine.repetitionTargets bits k))

/-- Carry out a quantum operation. -/
def operate : Operation → Activity R Unit
  | .call c => call c
  | .measure source target =>
    match source.index, target.index with
    | none, none => onMachine (.measure source.name target.name)
    | some i, some j => onMachine (.measureBit source.name i target.name j)
    | _, _ => throw (.bare (.sizeMismatch (.measureMixed source target)))
  | .reset target => do
    let x ← get
    match x.machine.isQuantum target.name, target.index with
    | true, none => onMachine (.resetQuantum target.name)
    | true, some i => onMachine (.resetQubit target.name i)
    | false, none => onMachine (.resetClassical target.name)
    | false, some i => onMachine (.resetClassicalBit target.name i)

/-- Carry out what a statement does. -/
def perform : Action → Activity R Unit
  | .register .quantum name width => onMachine (.declareQuantum name width)
  | .register .classical name width => onMachine (.declareClassical name width)
  | .gate signature body =>
    modify fun x => { x with gates := x.gates.insert signature.name (.defined signature body) }
  | .opaqueGate signature =>
    modify fun x => { x with gates := x.gates.insert signature.name .sealed }
  | .operation o => operate o
  | .barrier operands => consult fun x => (x.machine.checkBarrier operands).mapError .bare
  | .conditional register value o _ => do
    let holds ← consult fun x => x.machine.condition register value
    if holds then operate o

/-- Carry out a statement. -/
def statement (s : Statement) : Activity R Unit :=
  Steps.mapError (.located s.pos) (perform s.action)

/-- Carry out statements up to the first that fails. -/
def run (statements : List Statement) : Activity R Unit := statements.forM statement

end Activity

end OpenQasm
