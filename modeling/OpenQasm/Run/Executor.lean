import OpenQasm.Quantum.Machine
import OpenQasm.Run.Instantiate

/-!
# Executing statements

An executor is a machine together with the gates declared so far; a gate can be called only after
its declaration has been executed.

A gate call whose operands include whole registers stands for one application per element, in
ascending order. The applications are separate: when one fails, those before it have taken
effect. `execute` therefore answers the executor that it leaves in any case, next to the error
if there is one. Every other statement either succeeds or changes nothing.

Model of the executor: statements one after the other, gate calls, conditions, and the gates that
have been declared. Out of scope: includes, which are gone when a program has been loaded
(`Include`), and logging.
-/

namespace OpenQasm

/-- A machine and the declared gates. -/
structure Executor (R : Type) where
  machine : Machine R
  gates : GateTable

/-- The state that an activity leaves, and the error that stopped it, if one did. -/
structure Outcome (S : Type) where
  state : S
  error? : Option RunError

namespace Outcome

variable {S T : Type}

/-- All or nothing: on failure the state is the one before. -/
def ofExcept (before : S) : Except RunError S → Outcome S
  | .ok after => ⟨after, none⟩
  | .error e => ⟨before, some e⟩

/-- Change the state. -/
def map (f : S → T) (o : Outcome S) : Outcome T := ⟨f o.state, o.error?⟩

/-- Blame a position for the error, unless one is blamed already. -/
def located (pos : SourcePos) (o : Outcome S) : Outcome S :=
  { o with error? := o.error?.map (.located pos) }

/-- Run an activity for every item, up to the first that fails. -/
def forAll {α : Type} (activity : S → α → Outcome S) : S → List α → Outcome S
  | s, [] => ⟨s, none⟩
  | s, a :: rest =>
    match activity s a with
    | ⟨after, none⟩ => forAll activity after rest
    | stopped => stopped

end Outcome

namespace Machine

variable {R : Type} [Scalar R]

/-- The bits named by an operand: one for an element, all of them for a register. -/
def operandBits (m : Machine R) (v : Operand) : Except RunFault (List Nat) :=
  match v.index with
  | some i => do return [← m.qubit v.name i]
  | none => do return (← m.quantumRegister v.name).positions

omit [Scalar R] in
/-- How often a call is repeated: the common width of the whole registers among its operands, or
once if there is none. -/
def repetitions (gate : GateName) (operands : List Operand) (bits : List (List Nat)) :
    Except RunFault Nat :=
  match ((operands.zip bits).filter fun p => !p.1.isIndexed).map fun p => p.2.length with
  | [] => .ok 1
  | n :: others =>
    if others.all (· == n) then .ok n else .error (.sizeMismatch (.broadcast gate))

/-- The targets of the `k`-th repetition. An operand that names a single bit keeps it. -/
def repetitionTargets (bits : List (List Nat)) (k : Nat) : List Nat :=
  bits.map fun b => if b.length = 1 then b.getD 0 0 else b.getD k 0

/-- Instantiate a gate and apply it to absolute bits. -/
def applyNamed (table : GateTable) (gate : GateName) (parameters : List R) (m : Machine R)
    (targets : List Nat) : Except RunError (Machine R) := do
  let instantiated ← table.instantiate gate parameters
  (m.apply instantiated targets).mapError .bare

/-- Execute a gate call. -/
def call (table : GateTable) (m : Machine R) (c : GateCall) : Outcome (Machine R) :=
  let prepared : Except RunError (List R × List (List Nat) × Nat) := do
    let parameters ← GateTable.values [] c.passed
    let bits ← (c.operands.mapM m.operandBits).mapError .bare
    let count ← (repetitions c.gate c.operands bits).mapError .bare
    return (parameters, bits, count)
  match prepared with
  | .error e => ⟨m, some e⟩
  | .ok (parameters, bits, count) =>
    Outcome.forAll
      (fun m k => .ofExcept m (m.applyNamed table c.gate parameters (repetitionTargets bits k)))
      m (List.range count)

/-- Execute a measurement: of a register into a register, or of a qubit into a bit. -/
def measureOperand (m : Machine R) (source target : Operand) : Except RunFault (Machine R) :=
  match source.index, target.index with
  | none, none => m.measure source.name target.name
  | some i, some j => m.measureBit source.name i target.name j
  | _, _ => .error (.sizeMismatch (.measureMixed source target))

/-- Execute a reset. A name that is not that of a quantum register is taken as classical. -/
def resetOperand (m : Machine R) (target : Operand) : Except RunFault (Machine R) :=
  match m.isQuantum target.name, target.index with
  | true, none => m.resetQuantum target.name
  | true, some i => m.resetQubit target.name i
  | false, none => m.resetClassical target.name
  | false, some i => m.resetClassicalBit target.name i

/-- Execute a quantum operation. -/
def operate (table : GateTable) (m : Machine R) : Operation → Outcome (Machine R)
  | .call c => m.call table c
  | .measure source target => .ofExcept m ((m.measureOperand source target).mapError .bare)
  | .reset target => .ofExcept m ((m.resetOperand target).mapError .bare)

/-- Whether a condition holds: the value, rounded to the nearest integer, is compared with the
register or with the bit that is named. -/
def condition (m : Machine R) (register : Operand) (value : Expr) : Except RunError Bool := do
  let r ← (m.classicalRegister register.name).mapError .bare
  let expected := Scalar.nearest (← value.evaluate ([] : Bindings R))
  match register.index with
  | none => return r.reads expected
  | some i =>
    match r.bits[i]? with
    | some b => return decide (expected = b.toNat)
    | none => throw (.bare (.indexOutOfRange register.name i r.width))

omit [Scalar R] in
/-- The operands of a barrier must be quantum registers; nothing else is looked at. -/
def checkBarrier (m : Machine R) (operands : List Operand) : Except RunFault Unit :=
  operands.forM fun v => do discard (m.quantumRegister v.name)

end Machine

namespace Executor

variable {R : Type} [Scalar R]

/-- Keep the gates and take over the machine of an outcome. -/
def withMachine (x : Executor R) (o : Outcome (Machine R)) : Outcome (Executor R) :=
  o.map fun machine => { x with machine }

/-- What a statement's action does, its errors not yet blamed on the statement. -/
def perform (x : Executor R) : Action → Outcome (Executor R)
  | .register .quantum name width =>
    x.withMachine (.ofExcept x.machine ((x.machine.declareQuantum name width).mapError .bare))
  | .register .classical name width =>
    x.withMachine (.ofExcept x.machine ((x.machine.declareClassical name width).mapError .bare))
  | .gate signature body =>
    ⟨{ x with gates := x.gates.insert signature.name (.defined signature body) }, none⟩
  | .opaqueGate signature => ⟨{ x with gates := x.gates.insert signature.name .sealed }, none⟩
  | .operation o => x.withMachine (x.machine.operate x.gates o)
  | .barrier operands =>
    .ofExcept x (((x.machine.checkBarrier operands).map fun _ => x).mapError .bare)
  | .conditional register value o _ =>
    match x.machine.condition register value with
    | .error e => ⟨x, some e⟩
    | .ok false => ⟨x, none⟩
    | .ok true => x.withMachine (x.machine.operate x.gates o)

/-- Execute a statement. -/
def execute (x : Executor R) (s : Statement) : Outcome (Executor R) :=
  (x.perform s.action).located s.pos

/-- Execute statements up to the first that fails. -/
def run (x : Executor R) (statements : List Statement) : Outcome (Executor R) :=
  Outcome.forAll execute x statements

/-- An executor whose machine and gate table are empty. -/
def initial (maxQubits : Nat) (draws : Nat → R) : Executor R := ⟨.initial maxQubits draws, []⟩

end Executor

/-- Execute a program on a fresh machine. -/
def Program.execute {R : Type} [Scalar R] (p : Program) (maxQubits : Nat) (draws : Nat → R) :
    Except RunError (Machine R) :=
  match (Executor.initial maxQubits draws).run p.statements with
  | ⟨x, none⟩ => .ok x.machine
  | ⟨_, some e⟩ => .error e

end OpenQasm
