import OpenQasm.Proofs.Atomic
import OpenQasm.Run.Procedure

/-!
# Statements, step by step

A statement carried out on an executor that is changed in place leaves the executor that
`Executor.execute` answers, with the same error. Every procedure of a machine is all or nothing; a
gate call is a loop over them, which stops where one of them fails.

* `Activity.onMachine_eq`: a procedure on the machine of an executor.
* `Activity.forM_eq`: a loop of procedures.
* **`Activity.statement_eq`**, **`Activity.run_eq`**: statements, one and several.
-/

namespace OpenQasm

open Steps

/-- What steps end with. -/
def Outcome.result {S : Type} (o : Outcome S) : EStateM.Result RunError S Unit :=
  match o.error? with
  | none => .ok () o.state
  | some e => .error e o.state

theorem Outcome.result_eq_error {S : Type} {o : Outcome S} {e : RunError} {after : S} :
    o.result = .error e after ↔ o = ⟨after, some e⟩ := by
  obtain ⟨state, error?⟩ := o
  cases error? with
  | none => exact ⟨nofun, nofun⟩
  | some found => exact ⟨fun h => by cases h; rfl, fun h => by cases h; rfl⟩

namespace Activity

variable {R : Type}

/-- A procedure that is all or nothing, on the machine of an executor. -/
theorem onMachine_eq {p : Procedure R Unit} {x : Executor R}
    {f : Except RunFault (Machine R)} (h : p x.machine = settled x.machine f) :
    onMachine p x = (x.withMachine (.ofExcept x.machine (f.mapError .bare))).result := by
  unfold onMachine onPart
  rw [h]
  cases f <;> rfl

/-- **A loop of activities on the machine** stops where `Outcome.forAll` does. -/
theorem forM_eq {α : Type} {activity : α → Activity R Unit}
    {next : Machine R → α → Outcome (Machine R)} {gates : GateTable}
    (h : ∀ m a, activity a ⟨m, gates⟩ = ((⟨m, gates⟩ : Executor R).withMachine (next m a)).result)
    (m : Machine R) (items : List α) :
    items.forM activity ⟨m, gates⟩ =
      ((⟨m, gates⟩ : Executor R).withMachine (Outcome.forAll next m items)).result := by
  induction items generalizing m with
  | nil => rfl
  | cons a rest ih =>
    show EStateM.bind (activity a) (fun _ => rest.forM activity) ⟨m, gates⟩ = _
    rw [EStateM.bind, h, Outcome.forAll]
    obtain ⟨after, error?⟩ := next m a
    cases error? with
    | none => exact ih after
    | some e => rfl

variable [Scalar R] (x : Executor R)

/-- One repetition of a call. -/
theorem applyNamed_eq (gate : GateName) (parameters : List R) (targets : List Nat) :
    (consult (fun x => x.gates.instantiate gate parameters) >>= fun instantiated =>
        onMachine (.apply instantiated targets)) x =
      (x.withMachine (.ofExcept x.machine
        (x.machine.applyNamed x.gates gate parameters targets))).result := by
  rw [consult_bind, Machine.applyNamed]
  cases x.gates.instantiate gate parameters with
  | error e => rfl
  | ok instantiated => exact onMachine_eq (Procedure.apply_settles instantiated targets)

/-- **A gate call**, step by step. -/
theorem call_eq (c : GateCall) :
    call c x = (x.withMachine (x.machine.call x.gates c)).result := by
  unfold call Machine.call
  rw [consult_bind]
  cases GateTable.values ([] : Bindings R) c.passed with
  | error e => rfl
  | ok parameters =>
    dsimp only
    rw [consult_bind]
    cases hbits : (c.operands.mapM x.machine.operandBits).mapError RunError.bare with
    | error e =>
      simp only [bind, Except.bind]
      rfl
    | ok bits =>
      dsimp only
      rw [consult_bind]
      cases hcount : (Machine.repetitions c.gate c.operands bits).mapError RunError.bare with
      | error e =>
        simp only [bind, Except.bind, hcount]
        rfl
      | ok count =>
        simp only [bind, Except.bind, hcount]
        exact forM_eq (fun m k => applyNamed_eq ⟨m, x.gates⟩ c.gate parameters _) x.machine _

/-- An operation, step by step. -/
theorem operate_eq (o : Operation) :
    operate o x = (x.withMachine (x.machine.operate x.gates o)).result := by
  cases o with
  | call c => exact call_eq x c
  | measure source target =>
    unfold operate Machine.operate Machine.measureOperand
    dsimp only
    cases source.index with
    | none =>
      cases target.index with
      | none => exact onMachine_eq (Procedure.measure_settles _ _)
      | some j => rfl
    | some i =>
      cases target.index with
      | none => rfl
      | some j => exact onMachine_eq (Procedure.measureBit_settles _ _ _ _)
  | reset target =>
    unfold operate Machine.operate Machine.resetOperand
    dsimp only
    rw [get_bind]
    cases x.machine.isQuantum target.name with
    | true =>
      cases target.index with
      | none => exact onMachine_eq (Procedure.resetQuantum_settles _)
      | some i => exact onMachine_eq (Procedure.resetQubit_settles _ _)
    | false =>
      cases target.index with
      | none => exact onMachine_eq (Procedure.resetClassical_settles _)
      | some i => exact onMachine_eq (Procedure.resetClassicalBit_settles _ _)

theorem perform_eq (a : Action) : perform a x = (x.perform a).result := by
  cases a with
  | register kind name width =>
    cases kind with
    | quantum => exact onMachine_eq (Procedure.declareQuantum_settles name width)
    | classical => exact onMachine_eq (Procedure.declareClassical_settles name width)
  | gate signature body => rfl
  | opaqueGate signature => rfl
  | operation o => exact operate_eq x o
  | barrier operands =>
    unfold perform Executor.perform consult
    dsimp only
    cases x.machine.checkBarrier operands <;> rfl
  | conditional register value o pos =>
    unfold perform Executor.perform
    dsimp only
    rw [consult_bind]
    cases x.machine.condition register value with
    | error e => rfl
    | ok holds =>
      cases holds with
      | false => rfl
      | true => exact operate_eq x o

/-- **A statement**, step by step. -/
theorem statement_eq (s : Statement) : statement s x = (x.execute s).result := by
  unfold statement mapError onPart
  rw [show perform s.action (id x) = _ from perform_eq x s.action, Executor.execute]
  obtain ⟨after, error?⟩ := x.perform s.action
  cases error? <;> rfl

/-- **Statements up to the first that fails**, step by step. -/
theorem run_eq (statements : List Statement) : run statements x = (x.run statements).result := by
  unfold run Executor.run
  induction statements generalizing x with
  | nil => rfl
  | cons s rest ih =>
    show EStateM.bind (statement s) (fun _ => rest.forM statement) x = _
    rw [EStateM.bind, statement_eq, Outcome.forAll]
    obtain ⟨after, error?⟩ := x.execute s
    cases error? with
    | none => exact ih after
    | some e => rfl

end Activity

end OpenQasm
