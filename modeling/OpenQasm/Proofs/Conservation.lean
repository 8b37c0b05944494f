import Mathlib.Algebra.BigOperators.Field
import OpenQasm.Proofs.Inlining
import OpenQasm.Proofs.Mass

/-!
# Probability is conserved

A machine starts with mass one, and every activity keeps it, however far it gets: a declaration adds
qubits that are `0`, a gate is unitary, and a measurement or a reset scales what it keeps to mass
one. Arithmetic is exact (`RealScalar`); the draws may be anything.

* `Machine.Normal`: laid out and of mass one. An operation keeps it (`normal_operate`).
* `Executor.Reached.normal`: so it holds of every executor that statements lead to.
* **`Executor.total_mass_conserved`**: the mass along whole runs, and the gates that keep it.
-/

namespace OpenQasm

open Kernel

namespace Machine

variable {R : Type} [RealScalar R] {m after : Machine R}

/-- A machine that is laid out and whose amplitudes have mass one. -/
structure Normal (m : Machine R) : Prop where
  laid : m.Laid
  mass_eq : m.vector.mass = 1

theorem normal_initial (maxQubits : Nat) (draws : Nat → R) : (initial maxQubits draws).Normal where
  laid := laid_initial maxQubits draws
  mass_eq := by
    rw [StateVector.mass_eq_sum]
    simp [initial, StateVector.size, StateVector.get, entry, Amplitude.mass_one]

/-! ## Declarations -/

theorem normal_of_declareClassical (hm : m.Normal) {name : String} {width : Nat}
    (h : m.declareClassical name width = .ok after) : after.Normal := by
  refine ⟨laid_of_declareClassical hm.laid h, ?_⟩
  obtain ⟨-, rfl⟩ := declareClassical_eq_ok.mp h
  exact hm.mass_eq

theorem normal_of_declareQuantum (hm : m.Normal) {name : String} {width : Nat}
    (h : m.declareQuantum name width = .ok after) : after.Normal := by
  refine ⟨laid_of_declareQuantum hm.laid h, ?_⟩
  obtain ⟨-, h⟩ := seq_eq_ok.mp h
  obtain ⟨-, h⟩ := ite_throw_bind_eq_ok.mp h
  obtain ⟨fresh, hfresh, h⟩ := bind_eq_ok.mp h
  obtain rfl := Except.ok.inj h
  show (fresh.tensor m.vector).mass = 1
  rw [StateVector.mass_tensor, StateVector.mass_of_zeroState (mapError_eq_ok.mp hfresh), hm.mass_eq,
    one_mul]

/-! ## Measurements and resets -/

theorem mass_of_measureBits {offset width outcome : Nat}
    (h : m.measureBits offset width = .ok (outcome, after)) : after.vector.mass = 1 := by
  obtain ⟨measured, hm, h⟩ := bind_eq_ok.mp h
  obtain ⟨-, rfl⟩ := Prod.mk.inj (Except.ok.inj h)
  exact StateVector.mass_of_measure (mapError_eq_ok.mp hm)

theorem mass_of_measureOperand {source target : Operand}
    (h : m.measureOperand source target = .ok after) : after.vector.mass = 1 := by
  unfold measureOperand at h
  split at h
  · obtain ⟨q, -, h⟩ := bind_eq_ok.mp h
    obtain ⟨c, -, h⟩ := bind_eq_ok.mp h
    obtain ⟨-, h⟩ := ite_throw_bind_eq_ok.mp h
    obtain ⟨⟨outcome, next⟩, hbits, h⟩ := bind_eq_ok.mp h
    obtain rfl := Except.ok.inj h
    have hmass := mass_of_measureBits hbits
    exact hmass
  · obtain ⟨bit, -, h⟩ := bind_eq_ok.mp h
    obtain ⟨c, -, h⟩ := bind_eq_ok.mp h
    obtain ⟨-, -, h⟩ := bind_eq_ok.mp h
    obtain ⟨⟨outcome, next⟩, hbits, h⟩ := bind_eq_ok.mp h
    obtain rfl := Except.ok.inj h
    have hmass := mass_of_measureBits hbits
    exact hmass
  · cases h

theorem mass_of_resetOperand (hm : m.vector.mass = 1) {target : Operand}
    (h : m.resetOperand target = .ok after) : after.vector.mass = 1 := by
  unfold resetOperand at h
  split at h
  · obtain ⟨r, -, h⟩ := bind_eq_ok.mp h
    obtain ⟨vector, hv, h⟩ := bind_eq_ok.mp h
    obtain rfl := Except.ok.inj h
    exact StateVector.mass_of_reset (mapError_eq_ok.mp hv)
  · obtain ⟨bit, -, h⟩ := bind_eq_ok.mp h
    obtain ⟨vector, hv, h⟩ := bind_eq_ok.mp h
    obtain rfl := Except.ok.inj h
    exact StateVector.mass_of_reset (mapError_eq_ok.mp hv)
  · obtain ⟨-, -, h⟩ := bind_eq_ok.mp h
    obtain rfl := Except.ok.inj h
    exact hm
  · obtain ⟨r, -, h⟩ := bind_eq_ok.mp h
    obtain ⟨-, -, h⟩ := bind_eq_ok.mp h
    obtain rfl := Except.ok.inj h
    exact hm

/-! ## Gates -/

/-- **An application of a gate** is a unitary operator on distinct bits. -/
theorem normal_of_applyNamed (hm : m.Normal) {table : GateTable} {gate : GateName}
    {parameters : List R} {targets : List Nat}
    (h : m.applyNamed table gate parameters targets = .ok after) : after.Normal := by
  refine ⟨(keeps_of_applyNamed h).laid hm.laid, ?_⟩
  obtain ⟨instantiated, hinstantiate, h⟩ := applyNamed_eq_ok.mp h
  obtain ⟨hlt, hdistinct, operator, hr, hdim, rfl⟩ := apply_eq_ok.mp h
  have hu := GateTable.unitary_of_instantiate hinstantiate hr
  rw [hdim] at hu
  exact (StateVector.mass_applyOnTargets hu ⟨hdim, hdistinct, hlt⟩ hm.laid.size).trans hm.mass_eq

/-- **An operation keeps the mass**, however far it gets. -/
theorem normal_operate (hm : m.Normal) (table : GateTable) (o : Operation) :
    (m.operate table o).state.Normal := by
  refine ⟨(keeps_operate table hm.laid o).laid hm.laid, ?_⟩
  cases o with
  | call c =>
    have hcall : (m.call table c).state.Normal := by
      rw [call_eq]
      split
      · exact hm
      · exact Outcome.invariant_forAll (P := Normal)
          (fun m a hm => Outcome.invariant_ofExcept hm fun _ h => normal_of_applyNamed hm h) _ hm
    exact hcall.mass_eq
  | measure source target =>
    exact Outcome.invariant_ofExcept (P := fun m : Machine R => m.vector.mass = 1) hm.mass_eq
      fun _ h => mass_of_measureOperand (mapError_eq_ok.mp h)
  | reset target =>
    exact Outcome.invariant_ofExcept (P := fun m : Machine R => m.vector.mass = 1) hm.mass_eq
      fun _ h => mass_of_resetOperand hm.mass_eq (mapError_eq_ok.mp h)

end Machine

namespace Executor

variable {R : Type} [RealScalar R] {x : Executor R} {maxQubits : Nat} {draws : Nat → R}

/-- **A statement keeps the mass**, also when it fails. -/
theorem normal_execute (h : x.machine.Normal) (s : Statement) :
    (x.execute s).state.machine.Normal := by
  show (x.perform s.action).state.machine.Normal
  cases s.action with
  | register kind name width =>
    cases kind with
    | quantum =>
      exact Outcome.invariant_ofExcept (P := Machine.Normal) h fun _ hd =>
        Machine.normal_of_declareQuantum h (mapError_eq_ok.mp hd)
    | classical =>
      exact Outcome.invariant_ofExcept (P := Machine.Normal) h fun _ hd =>
        Machine.normal_of_declareClassical h (mapError_eq_ok.mp hd)
  | gate signature body => exact h
  | opaqueGate signature => exact h
  | operation o => exact Machine.normal_operate h x.gates o
  | barrier operands =>
    rw [perform]
    cases x.machine.checkBarrier operands with
    | error e => exact h
    | ok u => exact h
  | conditional register value o pos =>
    rw [perform]
    split
    · exact h
    · exact h
    · exact Machine.normal_operate h x.gates o

/-- Every executor that statements lead to has mass one. -/
theorem Reached.normal (h : Reached maxQubits draws x) : x.machine.Normal := by
  induction h with
  | initial => exact Machine.normal_initial maxQubits draws
  | execute s _ ih => exact normal_execute ih s

/-- **Total probability is conserved over whole runs.** The amplitudes have mass one after every
statement of a program, in whatever order statements are executed and whether they succeed or fail.
Every gate that is instantiated and resolves is unitary, and keeps the mass of every vector on any
distinct bits. The circuits inside a gate that resolves are on no more than `SquareMatrix.maxQubits`
qubits, so that their dimensions are words. -/
theorem total_mass_conserved :
    (∀ (maxQubits : Nat) (draws : Nat → R) (p : Program) (executed : Nat),
      ((initial maxQubits draws).run (p.statements.take executed)).state.machine.vector.mass = 1) ∧
    (∀ (maxQubits : Nat) (draws : Nat → R) (x : Executor R),
      Reached maxQubits draws x → x.machine.vector.mass = 1) ∧
    ∀ (table : GateTable) (gate : GateName) (parameters : List R)
        (instantiated : Gate (Amplitude R)) (operator : SquareMatrix (Amplitude R)),
      table.instantiate gate parameters = .ok instantiated → instantiated.resolve = .ok operator →
      operator.mul (operator.adjoint Amplitude.conj) = .ok (.identity operator.dim) ∧
        ∀ (v : StateVector (Amplitude R)) (n : Nat) (targets : List Nat),
          v.size = 2 ^ n → operator.dim = 2 ^ targets.length → targets.Nodup →
          (∀ t ∈ targets, t < n) →
          (⟨applyOnTargets v.entries operator.entries targets⟩ : StateVector (Amplitude R)).mass =
            v.mass := by
  refine ⟨?_, ?_, ?_⟩
  · intro maxQubits draws p executed
    exact (Reached.initial.run (p.statements.take executed)).normal.mass_eq
  · intro maxQubits draws x hx
    exact hx.normal.mass_eq
  · intro table gate parameters instantiated operator hinstantiate hr
    have hu := GateTable.unitary_of_instantiate hinstantiate hr
    refine ⟨hu.mul_adjoint, fun v n targets hv hdim hdistinct hlt => ?_⟩
    exact StateVector.mass_applyOnTargets (hdim ▸ hu) ⟨hdim, hdistinct, hlt⟩ hv

/-- Two qubits after a declaration, and a defined gate on two bits of a vector of three. -/
theorem total_mass_conserved_flip :
    (∃ x, (initial 24 fun _ => (0 : ℝ)).execute ⟨.register .quantum "q" 2, flipPos⟩ = ⟨x, none⟩ ∧
        x.machine.vector.mass = 1) ∧
      ∃ instantiated operator, flipTable.instantiate (.named "flip") [Real.pi] = .ok instantiated ∧
        instantiated.resolve = .ok operator ∧
        operator.mul (operator.adjoint Amplitude.conj) = .ok (.identity operator.dim) ∧
        (⟨applyOnTargets #[⟨3 / 5, 0⟩, 0, 0, ⟨0, 4 / 5⟩, 0, 0, 0, 0] operator.entries [2, 0]⟩ :
          StateVector (Amplitude ℝ)).mass = 1 := by
  obtain ⟨-, hreached, hgates⟩ := total_mass_conserved (R := ℝ)
  refine ⟨⟨_, rfl, hreached 24 (fun _ => 0) _
    (.execute ⟨.register .quantum "q" 2, flipPos⟩ .initial)⟩, ?_⟩
  -- the call in which the gate is known to resolve
  obtain ⟨after, hcall⟩ := exists_call_flip
  obtain ⟨calls, hcalls, heach⟩ := Machine.call_eq_ok.mp hcall
  obtain rfl : [⟨.named "flip", [Real.pi], [1, 0]⟩] = calls := Except.ok.inj hcalls
  rw [Machine.applyEach_cons] at heach
  obtain ⟨next, hnamed, -⟩ := bind_eq_ok.mp heach
  obtain ⟨instantiated, hinstantiate, happly⟩ := Machine.applyNamed_eq_ok.mp hnamed
  obtain ⟨-, -, operator, hr, hdim, -⟩ := Machine.apply_eq_ok.mp happly
  obtain ⟨hunitary, hkeeps⟩ := hgates _ _ _ _ _ hinstantiate hr
  refine ⟨instantiated, operator, hinstantiate, hr, hunitary, ?_⟩
  refine (hkeeps ⟨#[⟨3 / 5, 0⟩, 0, 0, ⟨0, 4 / 5⟩, 0, 0, 0, 0]⟩ 3 [2, 0] rfl hdim
    (by decide) (by decide)).trans ?_
  rw [StateVector.mass_eq_sum]
  simp [Finset.sum_range_succ, StateVector.size, StateVector.get, entry, Amplitude.mass,
    Amplitude.zero_re, Amplitude.zero_im]
  norm_num

end Executor

end OpenQasm
