import OpenQasm.Proofs.Agreement
import OpenQasm.Proofs.Conservation
import OpenQasm.Proofs.Interruption
import OpenQasm.Proofs.Stepwise

/-!
# What a failing statement leaves

A statement that fails changes nothing, with one exception: a gate call that is interrupted leaves
the amplitudes as its first repetitions have made them.

* `LeftBy`: what an action leaves that fails.
* **`Executor.effect_of_failure`**: what a statement, and a run of statements, leaves when it fails.
* `Executor.failure_changes_amplitudes`: the exception, in a program of three statements.
-/

namespace OpenQasm

open BitIndex Kernel

namespace Executor

section Statements

variable {R : Type} [Scalar R] {x after : Executor R} {e : RunError}

/-- What an action leaves that fails. Of the executor only the amplitudes can have changed, and only
by a call that the action executes and that has been interrupted. -/
structure LeftBy (x : Executor R) (a : Action) (fault : RunFault) (after : Executor R) : Prop where
  amplitudes : after = { x with machine := { x.machine with vector := after.machine.vector } }
  vector : after.machine.vector = x.machine.vector ∨
    ∃ c k, x.Executes a (.call c) ∧ x.machine.Interrupted x.gates c k fault after.machine

theorem LeftBy.refl (x : Executor R) (a : Action) (fault : RunFault) : x.LeftBy a fault x :=
  ⟨rfl, Or.inl rfl⟩

omit [Scalar R] in
theorem withMachine_eq_error {o : Outcome (Machine R)} (h : x.withMachine o = ⟨after, some e⟩) :
    ∃ machine, o = ⟨machine, some e⟩ ∧ after = { x with machine } := by
  obtain ⟨machine, error?⟩ := o
  cases h
  exact ⟨machine, rfl, rfl⟩

omit [Scalar R] in
/-- A change of the machine that is all or nothing. -/
theorem withMachine_ofExcept_eq_error {f : Except RunError (Machine R)}
    (h : x.withMachine (.ofExcept x.machine f) = ⟨after, some e⟩) : after = x := by
  obtain ⟨machine, hmachine, rfl⟩ := withMachine_eq_error h
  obtain ⟨-, rfl⟩ := Outcome.ofExcept_eq_error.mp hmachine
  rfl

theorem leftBy_of_operate (hx : x.machine.Laid) {a : Action} {o : Operation}
    (hexecutes : x.Executes a o) (h : x.withMachine (x.machine.operate x.gates o) =
      ⟨after, some e⟩) : x.LeftBy a e.fault after := by
  obtain ⟨machine, hmachine, rfl⟩ := withMachine_eq_error h
  obtain ⟨hvector, hcases⟩ := Machine.interrupted_of_operate hx hmachine
  refine ⟨congrArg (Executor.mk · x.gates) hvector, hcases.imp_right ?_⟩
  rintro ⟨c, k, rfl, hk⟩
  exact ⟨c, k, hexecutes, hk⟩

/-- **An action that fails.** -/
theorem leftBy_of_perform (hx : x.machine.Laid) {a : Action} (h : x.perform a = ⟨after, some e⟩) :
    x.LeftBy a e.fault after := by
  cases a with
  | register kind name width =>
    cases kind with
    | quantum => exact withMachine_ofExcept_eq_error h ▸ LeftBy.refl ..
    | classical => exact withMachine_ofExcept_eq_error h ▸ LeftBy.refl ..
  | gate signature body => cases h
  | opaqueGate signature => cases h
  | operation o => exact leftBy_of_operate hx rfl h
  | barrier operands => exact (Outcome.ofExcept_eq_error.mp h).2 ▸ LeftBy.refl ..
  | conditional register value o pos =>
    rw [perform] at h
    cases hcondition : x.machine.condition register value with
    | error found =>
      rw [hcondition] at h
      cases h
      exact LeftBy.refl ..
    | ok holds =>
      rw [hcondition] at h
      cases holds with
      | false => cases h
      | true => exact leftBy_of_operate hx ⟨hcondition, rfl⟩ h

/-- **A statement that fails**: blaming its position changes neither the fault nor the executor. -/
theorem leftBy_of_execute (hx : x.machine.Laid) {s : Statement}
    (h : x.execute s = ⟨after, some e⟩) : x.LeftBy s.action e.fault after := by
  rw [execute] at h
  cases hperform : x.perform s.action with
  | mk next error? =>
    rw [hperform] at h
    cases error? with
    | none => cases h
    | some inner =>
      have hleft := leftBy_of_perform hx hperform
      cases h
      exact hleft

/-- **What failures leave.** A statement that fails on an executor that statements lead to leaves
registers with their bits, draws and gates as they were; and the amplitudes too, unless it is a
gate call that is passed a whole register and an element of it. Then the repetitions of the call
below that element have been applied, and the fault is that its qubit is given twice. When a run of
statements fails, those before the failing one have succeeded, and this is what the failing one
leaves. -/
theorem effect_of_failure (maxQubits : Nat) (draws : Nat → R) (x : Executor R)
    (hx : Reached maxQubits draws x) :
    (∀ s e after, Activity.statement s x = .error e after →
      x.execute s = ⟨after, some e⟩ ∧ x.LeftBy s.action e.fault after) ∧
    ∀ statements e after, Activity.run statements x = .error e after →
      ∃ done s rest middle, statements = done ++ s :: rest ∧
        Activity.run done x = .ok () middle ∧ Activity.statement s middle = .error e after ∧
        middle.LeftBy s.action e.fault after := by
  constructor
  · intro s e after h
    rw [Activity.statement_eq, Outcome.result_eq_error] at h
    exact ⟨h, leftBy_of_execute hx.laid h⟩
  · intro statements e after h
    rw [Activity.run_eq, Outcome.result_eq_error] at h
    obtain ⟨done, s, rest, middle, rfl, hdone, hs⟩ := Outcome.forAll_eq_error h
    have hmiddle := hx.run done
    rw [run, hdone] at hmiddle
    refine ⟨done, s, rest, middle, rfl, ?_, ?_, leftBy_of_execute hmiddle.laid hs⟩
    · rw [Activity.run_eq, run, hdone]
      rfl
    · rw [Activity.statement_eq, hs]
      rfl

end Statements

/-! ## A register and one of its elements -/

section Overlap

/-- Where the statements below stand. -/
def overlapPos : SourcePos := ⟨"overlap.qasm", 1, 1⟩

/-- `U(pi, 0, pi) a[1];` -/
def turnCall : GateCall :=
  ⟨.rotation, some [.pi overlapPos, .integer 0 overlapPos, .pi overlapPos],
    [⟨"a", some 1, overlapPos⟩]⟩

/-- `CX a[1], a;` -/
def overlapCall : GateCall :=
  ⟨.controlledNot, none, [⟨"a", some 1, overlapPos⟩, ⟨"a", none, overlapPos⟩]⟩

/-- `qreg a[2]; U(pi, 0, pi) a[1];` -/
def turnStatements : List Statement :=
  [⟨.register .quantum "a" 2, overlapPos⟩, ⟨.operation (.call turnCall), overlapPos⟩]

def overlapStatement : Statement := ⟨.operation (.call overlapCall), overlapPos⟩

/-- An executor with two qubits whose vector has these entries. -/
noncomputable def twoQubitExecutor (entries : Array (Amplitude ℝ)) : Executor ℝ :=
  ⟨⟨⟨entries⟩, [⟨"a", 0, 2⟩], [], fun _ => 0, 0, 24⟩, []⟩

/-- The operator of the turn. -/
noncomputable def turn : SquareMatrix (Amplitude ℝ) :=
  Gate.rotationMatrix Real.pi (Scalar.ofNat 0) Real.pi

/-- Both qubits `0`, as the declaration leaves them. -/
noncomputable def declaredEntries : Array (Amplitude ℝ) := #[1 * 1, 0 * 1, 0 * 1, 0 * 1]

/-- The entries after the turn. -/
noncomputable def turnedEntries : Array (Amplitude ℝ) :=
  applyOnTargets declaredEntries turn.entries [1]

/-- The entries of the controlled flip. -/
noncomputable def flipEntries : Array (Amplitude ℝ) :=
  #[1, 0, 0, 0,  0, 0, 0, 1,  0, 0, 1, 0,  0, 1, 0, 0]

/-- The entries after the first repetition of the call. -/
noncomputable def repeatedEntries : Array (Amplitude ℝ) :=
  applyOnTargets turnedEntries flipEntries [1, 0]

theorem run_turnStatements : (initial 24 fun _ => (0 : ℝ)).run turnStatements =
    ⟨twoQubitExecutor turnedEntries, none⟩ := by
  have hnamed : (twoQubitExecutor declaredEntries).machine.applyNamed [] .rotation
      [Real.pi, Scalar.ofNat 0, Real.pi] [1] = .ok (twoQubitExecutor turnedEntries).machine :=
    Machine.applyNamed_eq_ok.mpr
      ⟨_, GateTable.instantiateWithin_rotation_eq_ok.mpr ⟨_, _, _, rfl, rfl⟩,
        Machine.apply_eq_ok.mpr ⟨by decide, by decide, turn, rfl, rfl, rfl⟩⟩
  have hcall : (twoQubitExecutor declaredEntries).machine.call [] turnCall =
      ⟨(twoQubitExecutor turnedEntries).machine, none⟩ := by
    refine Machine.call_eq_ok.mpr
      ⟨[⟨.rotation, [Real.pi, Scalar.ofNat 0, Real.pi], [1]⟩], rfl, ?_⟩
    rw [Machine.applyEach_cons]
    exact bind_eq_ok.mpr ⟨_, hnamed, rfl⟩
  have hexecute : (twoQubitExecutor declaredEntries).execute
      ⟨.operation (.call turnCall), overlapPos⟩ = ⟨twoQubitExecutor turnedEntries, none⟩ := by
    show (withMachine _ (Machine.call [] _ turnCall)).located _ = _
    rw [hcall]
    rfl
  show Outcome.forAll execute (twoQubitExecutor declaredEntries)
    [⟨.operation (.call turnCall), overlapPos⟩] = _
  rw [Outcome.forAll, hexecute]
  rfl

/-- The first repetition flips `a[0]`; the second one is given `a[1]` twice. -/
theorem statement_overlap :
    Activity.statement overlapStatement (twoQubitExecutor turnedEntries) =
      .error ⟨.duplicateQubit 1, some overlapPos⟩ (twoQubitExecutor repeatedEntries) := by
  have hfirst : (twoQubitExecutor turnedEntries).machine.applyNamed [] .controlledNot [] [1, 0] =
      .ok (twoQubitExecutor repeatedEntries).machine :=
    Machine.applyNamed_eq_ok.mpr ⟨_, GateTable.instantiateWithin_controlledNot [] [],
      Machine.apply_eq_ok.mpr ⟨by decide, by decide, _, rfl, rfl, rfl⟩⟩
  have hsecond : (twoQubitExecutor repeatedEntries).machine.applyNamed [] .controlledNot []
      [1, 1] = .error (.bare (.duplicateQubit 1)) := by
    rw [Machine.applyNamed, GateTable.instantiate, GateTable.instantiateWithin_controlledNot]
    rfl
  have hcall : (twoQubitExecutor turnedEntries).machine.call [] overlapCall =
      ⟨(twoQubitExecutor repeatedEntries).machine, some (.bare (.duplicateQubit 1))⟩ := by
    have happlications : (twoQubitExecutor turnedEntries).machine.applications overlapCall =
        .ok [⟨.controlledNot, [], [1, 0]⟩, ⟨.controlledNot, [], [1, 1]⟩] := rfl
    rw [Machine.call_eq, happlications]
    dsimp only
    rw [Outcome.forAll, hfirst, Outcome.ofExcept]
    dsimp only
    rw [Outcome.forAll, hsecond]
    rfl
  rw [Activity.statement_eq, Outcome.result_eq_error]
  show (withMachine _ (Machine.call [] _ overlapCall)).located _ = _
  rw [hcall]
  rfl

/-! The amplitude of `a = 3` before and after the call. -/

theorem entry_turn : entry turn.entries 2 = ⟨0, -1⟩ := by
  show (Amplitude.times _ _).conj = _
  ext <;> simp [Amplitude.times, Amplitude.unit, Amplitude.conj, Scalar.half, Scalar.ofNat,
    Scalar.sin, Scalar.cos]

theorem entry_turnedEntries : entry turnedEntries 2 = ⟨0, -1⟩ ∧ entry turnedEntries 3 = 0 := by
  constructor
  · calc entry turnedEntries 2
        = ∑ j ∈ Finset.range 2, entry turn.entries (2 + j) *
            entry declaredEntries (patch [1] 2 j) := entry_applyOnTargets _ _ _ (by decide)
      _ = entry turn.entries 2 * (1 * 1) + entry turn.entries 3 * (0 * 1) := by
        rw [Finset.sum_range_succ, Finset.sum_range_one]
        rfl
      _ = ⟨0, -1⟩ := by rw [entry_turn, mul_one, mul_one, zero_mul, mul_zero, add_zero]
  · calc entry turnedEntries 3
        = ∑ j ∈ Finset.range 2, entry turn.entries (2 + j) *
            entry declaredEntries (patch [1] 3 j) := entry_applyOnTargets _ _ _ (by decide)
      _ = entry turn.entries 2 * (0 * 1) + entry turn.entries 3 * (0 * 1) := by
        rw [Finset.sum_range_succ, Finset.sum_range_one]
        rfl
      _ = 0 := by rw [zero_mul, mul_zero, mul_zero, add_zero]

theorem entry_repeatedEntries : entry repeatedEntries 3 = ⟨0, -1⟩ := by
  calc entry repeatedEntries 3
      = ∑ j ∈ Finset.range 4, entry flipEntries (12 + j) *
          entry turnedEntries (patch [1, 0] 3 j) := entry_applyOnTargets _ _ _ (by decide)
    _ = 0 * entry turnedEntries 0 + 1 * entry turnedEntries 2 + 0 * entry turnedEntries 1 +
          0 * entry turnedEntries 3 := by
      rw [Finset.sum_range_succ, Finset.sum_range_succ, Finset.sum_range_succ,
        Finset.sum_range_one]
      rfl
    _ = ⟨0, -1⟩ := by
      rw [entry_turnedEntries.1]
      ring

/-- The call has changed the vector. -/
theorem repeated_ne_turned : (twoQubitExecutor repeatedEntries).machine.vector ≠
    (twoQubitExecutor turnedEntries).machine.vector := by
  intro h
  have hentry : entry repeatedEntries 3 = entry turnedEntries 3 := congrArg (StateVector.get · 3) h
  rw [entry_repeatedEntries, entry_turnedEntries.2] at hentry
  exact neg_ne_zero.mpr one_ne_zero (congrArg Amplitude.im hentry)

theorem reached_turned : Reached 24 (fun _ => (0 : ℝ)) (twoQubitExecutor turnedEntries) := by
  have hinitial : Reached 24 (fun _ => (0 : ℝ)) (.initial 24 fun _ => 0) := .initial
  have h := hinitial.run turnStatements
  rwa [run_turnStatements] at h

/-- **A failing statement can have an effect.** Not every statement that fails on an executor that
statements lead to leaves the amplitudes as they were: `CX a[1], a;` after `U(pi, 0, pi) a[1];`
moves the amplitude of `a = 2` to `a = 3` and then fails, and so does a run of all three
statements. -/
theorem failure_changes_amplitudes :
    (¬∀ x : Executor ℝ, Reached 24 (fun _ => 0) x → ∀ s e after,
      Activity.statement s x = .error e after →
        after.machine.vector = x.machine.vector) ∧
    ∃ before after, (initial 24 fun _ => (0 : ℝ)).run turnStatements = ⟨before, none⟩ ∧
      Activity.run (turnStatements ++ [overlapStatement]) (initial 24 fun _ => (0 : ℝ)) =
        .error ⟨.duplicateQubit 1, some overlapPos⟩ after ∧
      before.machine.vector.get 3 = 0 ∧ after.machine.vector.get 3 = ⟨0, -1⟩ := by
  constructor
  · exact fun h => repeated_ne_turned (h _ reached_turned _ _ _ statement_overlap)
  · refine ⟨_, twoQubitExecutor repeatedEntries, run_turnStatements, ?_, entry_turnedEntries.2,
      entry_repeatedEntries⟩
    have hstatement := statement_overlap
    rw [Activity.statement_eq, Outcome.result_eq_error] at hstatement
    have hrest : Outcome.forAll execute (twoQubitExecutor turnedEntries) [overlapStatement] =
        ⟨twoQubitExecutor repeatedEntries, some ⟨.duplicateQubit 1, some overlapPos⟩⟩ := by
      rw [Outcome.forAll, hstatement]
    rw [Activity.run_eq, Outcome.result_eq_error, run,
      Outcome.forAll_append run_turnStatements, hrest]

/-- The call that stops at its second repetition. -/
theorem effect_of_failure_overlap :
    ∃ after, Activity.statement overlapStatement (twoQubitExecutor turnedEntries) =
        .error ⟨.duplicateQubit 1, some overlapPos⟩ after ∧
      after.gates = [] ∧ after.machine.quantum = [⟨"a", 0, 2⟩] ∧
      ∃ c k, c = overlapCall ∧ (twoQubitExecutor turnedEntries).machine.Interrupted [] c k
        (.duplicateQubit 1) after.machine := by
  obtain ⟨hstatement, -⟩ := effect_of_failure 24 (fun _ => (0 : ℝ)) _ reached_turned
  obtain ⟨-, hleft⟩ := hstatement _ _ _ statement_overlap
  refine ⟨_, statement_overlap, rfl, rfl, ?_⟩
  rcases hleft.vector with hsame | ⟨c, k, hexecutes, hk⟩
  · exact absurd hsame repeated_ne_turned
  · exact ⟨c, k, Operation.call.inj hexecutes, hk⟩

end Overlap

end Executor

end OpenQasm
