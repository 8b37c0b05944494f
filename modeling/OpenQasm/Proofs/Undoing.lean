import OpenQasm.Proofs.Applying
import OpenQasm.Proofs.Rotations

/-!
# Undoing a circuit

A circuit of rotations and controlled flips is undone by the inverses of its steps, in reverse
order: the rotation `U(theta, phi, lambda)` by `U(-theta, -lambda, -phi)`, a controlled flip by
itself. Amplitudes are exact and arbitrary; the machine comes back as a whole.

* `Kernel.applyOnTargets_adjoint`: the adjoint of a unitary operator takes back its application.
* `Primitive.exists_unitary`: a step applies a unitary operator, and its inverse the adjoint.
* `Machine.apply_inverse`: the step, taken back.
* **`Machine.undo`**: the circuit, by induction on its steps.
-/

namespace OpenQasm

open Kernel Finset

/-! ## Taking back an application -/

theorem SquareMatrix.Unitary.adjoint_mul {A : Type} [CommRing A] [StarRing A] [BEq A]
    [LawfulBEq A] {m : SquareMatrix A} {d : Nat} (h : m.Unitary d) :
    (m.adjoint star).mul m = .ok (identity d) := by
  obtain ⟨rfl, hu⟩ := h
  have hadjoint : (m.adjoint star).toMatrix m.dim = star (m.toMatrix m.dim) := by
    ext i j
    exact get_adjoint rfl i.isLt j.isLt
  rw [mul_eq_product (a := m.adjoint star) (b := m) rfl]
  refine congrArg Except.ok (ext_toMatrix (d := m.dim) rfl rfl ?_)
  rw [toMatrix_product (a := m.adjoint star) (d := m.dim) rfl, hadjoint,
    Matrix.mem_unitaryGroup_iff'.mp hu, toMatrix_identity]

theorem Kernel.applyOnTargets_adjoint {A : Type} [CommRing A] [StarRing A] [BEq A] [LawfulBEq A]
    {m : SquareMatrix A} {targets : List Nat} {vector : Array A} {n : Nat}
    (h : m.Unitary (2 ^ targets.length)) (hd : targets.Nodup) (hn : ∀ t ∈ targets, t < n)
    (hv : vector.size = 2 ^ n) :
    applyOnTargets (applyOnTargets vector m.entries targets) (m.adjoint star).entries targets =
      vector := by
  rw [← applyOnTargets_mul h.adjoint_mul h.1 hd hn hv, applyOnTargets_identity]

/-! ## Primitive steps -/

/-- A rotation of one bit, or the flip of a bit where another one is set. -/
inductive Primitive (R : Type) where
  | rotation (theta phi lambda : R) (bit : Nat)
  | controlledNot (control target : Nat)

namespace Primitive

variable {R : Type} [Scalar R]

def gate : Primitive R → Gate (Amplitude R)
  | rotation theta phi lambda _ => .rotation theta phi lambda
  | controlledNot _ _ => .controlledNot

omit [Scalar R] in
/-- The bits that a step is applied to, in the order of its gate's qubits. -/
def bits : Primitive R → List Nat
  | rotation _ _ _ bit => [bit]
  | controlledNot control target => [control, target]

/-- The step that takes it back. -/
def inverse : Primitive R → Primitive R
  | rotation theta phi lambda bit => rotation (-theta) (-lambda) (-phi) bit
  | controlledNot control target => controlledNot control target

omit [Scalar R] in
/-- The bits of a step are among `n`, and a controlled flip has two. -/
def Within (n : Nat) (p : Primitive R) : Prop := p.bits.Nodup ∧ ∀ b ∈ p.bits, b < n

/-- The steps that take back a list of steps. -/
def undoing (steps : List (Primitive R)) : List (Primitive R) := (steps.map inverse).reverse

theorem bits_inverse (p : Primitive R) : p.inverse.bits = p.bits := by cases p <;> rfl

theorem undoing_cons (p : Primitive R) (rest : List (Primitive R)) :
    undoing (p :: rest) = undoing rest ++ [p.inverse] := List.reverse_cons ..

end Primitive

/-- A controlled flip is its own adjoint. -/
theorem Gate.exists_unitary_controlledNot : ∃ m : SquareMatrix (Amplitude ℝ),
    Gate.controlledNot = .operator m ∧ m.Unitary 4 ∧ m.adjoint star = m := by
  have hunitary := unitary_controlledNot (R := ℝ)
  unfold controlledNot OfUnitaries Every at hunitary
  refine ⟨_, rfl, hunitary, ?_⟩
  refine SquareMatrix.ext_get (d := 4) rfl rfl fun i j hi hj => ?_
  rw [SquareMatrix.get_adjoint (d := 4) rfl hi hj]
  interval_cases i <;> interval_cases j <;> simp [SquareMatrix.get, entry]

/-- **A step applies a unitary operator**, and the step that takes it back applies the adjoint. -/
theorem Primitive.exists_unitary (p : Primitive ℝ) : ∃ m : SquareMatrix (Amplitude ℝ),
    p.gate = .operator m ∧ m.Unitary (2 ^ p.bits.length) ∧
      p.inverse.gate = .operator (m.adjoint star) := by
  cases p with
  | rotation theta phi lambda bit =>
    refine ⟨Gate.rotationMatrix theta phi lambda, rfl, ?_, ?_⟩
    · have hunitary := Gate.unitary_rotation theta phi lambda
      unfold Gate.rotation Gate.OfUnitaries Gate.Every at hunitary
      exact hunitary
    · rw [Gate.adjoint_rotationMatrix]
      rfl
  | controlledNot control target =>
    obtain ⟨m, hgate, hunitary, hadjoint⟩ := Gate.exists_unitary_controlledNot
    exact ⟨m, hgate, hunitary, by rw [hadjoint]; exact hgate⟩

/-! ## Circuits -/

namespace Machine

/-- Apply a list of steps in order. -/
def applyPrimitives {R : Type} [Scalar R] (m : Machine R) (steps : List (Primitive R)) :
    Except RunFault (Machine R) :=
  steps.foldlM (fun m p => m.apply p.gate p.bits) m

/-- A step can be applied, and taken back. -/
theorem apply_inverse {m : Machine ℝ} {p : Primitive ℝ} (hm : m.vector.size = 2 ^ m.qubits)
    (hp : p.Within m.qubits) : ∃ next, m.apply p.gate p.bits = .ok next ∧
      next.qubits = m.qubits ∧ next.vector.size = 2 ^ m.qubits ∧
      next.apply p.inverse.gate p.inverse.bits = .ok m := by
  obtain ⟨hd, hlt⟩ := hp
  obtain ⟨u, hgate, hu, hinverse⟩ := p.exists_unitary
  refine ⟨{ m with vector := ⟨applyOnTargets m.vector.entries u.entries p.bits⟩ }, ?_, rfl,
    (size_applyOnTargets ..).trans hm, ?_⟩
  · refine apply_eq_ok.mpr ⟨hlt, hd, u, ?_, hu.1, rfl⟩
    rw [hgate, Gate.resolve]
  · rw [Primitive.bits_inverse]
    refine apply_eq_ok.mpr ⟨hlt, hd, u.adjoint star, ?_, hu.1, ?_⟩
    · rw [hinverse, Gate.resolve]
    · rw [applyOnTargets_adjoint hu hd hlt hm]

/-- **Circuits can be undone**: whatever the amplitudes are, all steps can be applied and taken
back, and the machine is the one before. -/
theorem undo {m : Machine ℝ} (hm : m.vector.size = 2 ^ m.qubits) (steps : List (Primitive ℝ))
    (hsteps : ∀ p ∈ steps, p.Within m.qubits) :
    ∃ middle, m.applyPrimitives steps = .ok middle ∧
      middle.applyPrimitives (Primitive.undoing steps) = .ok m := by
  -- the first step is taken back last
  induction steps generalizing m with
  | nil => exact ⟨m, rfl, rfl⟩
  | cons p rest ih =>
    obtain ⟨next, happly, hqubits, hsize, hback⟩ :=
      apply_inverse hm (hsteps p List.mem_cons_self)
    rw [← hqubits] at hsize
    obtain ⟨middle, hrest, hundo⟩ :=
      ih hsize fun q hq => hqubits ▸ hsteps q (List.mem_cons_of_mem _ hq)
    refine ⟨middle, ?_, ?_⟩
    · rw [applyPrimitives, List.foldlM_cons, happly]
      exact hrest
    · rw [applyPrimitives, Primitive.undoing_cons, List.foldlM_append]
      refine bind_eq_ok.mpr ⟨next, hundo, ?_⟩
      rw [List.foldlM_cons, hback]
      rfl

/-- Two qubits with any amplitudes: a rotation of the second, a controlled flip of the first. -/
theorem undo_turned_flip :
    let m : Machine ℝ := ⟨⟨#[⟨1, 0⟩, ⟨0, 2⟩, ⟨3, 1⟩, ⟨0, -4⟩]⟩, [⟨"q", 0, 2⟩], [], fun _ => 0, 0, 24⟩
    ∃ middle, m.applyPrimitives [.rotation 1 2 3 1, .controlledNot 1 0] = .ok middle ∧
      middle.applyPrimitives [.controlledNot 1 0, .rotation (-1) (-3) (-2) 1] = .ok m := by
  intro m
  refine undo (m := m) rfl [.rotation 1 2 3 1, .controlledNot 1 0] fun p hp => ?_
  simp only [List.mem_cons, List.not_mem_nil, or_false] at hp
  rcases hp with rfl | rfl <;> exact ⟨by decide, by decide⟩

end Machine

end OpenQasm
