import Mathlib.LinearAlgebra.UnitaryGroup
import Mathlib.Tactic.IntervalCases
import Mathlib.Tactic.LinearCombination
import OpenQasm.Proofs.Composition
import OpenQasm.Proofs.Exact
import OpenQasm.Proofs.Instantiation

/-!
# Unitary operators

Every gate that is instantiated and resolves is a unitary operator. Operators are read as matrices
over amplitudes (`toMatrix`), where the product of unitary matrices is known to be unitary; what has
to be shown is that the primitives are unitary (`unitary_rotation`, `unitary_controlledNot`) and
that a lift is (`Unitary.lifted`). Resolving a gate multiplies lifts of its operators.

* `Gate.unitary_of_resolve`: a gate made of unitary operators resolves to one, by induction on it.
* `GateTable.unitary_of_instantiate`: instantiation makes gates of unitary operators only, and these
  resolve to unitary operators.
* `SquareMatrix.Unitary.mul_adjoint`: the product with the adjoint is the identity.
-/

namespace OpenQasm

open BitIndex Kernel Finset

namespace Amplitude

variable {R : Type} [ExactScalar R]

theorem conj_re (a : Amplitude R) : a.conj.re = a.re := rfl
theorem conj_im (a : Amplitude R) : a.conj.im = -a.im := rfl

/-- **Conjugation is an involution of the ring of amplitudes.** -/
instance : StarRing (Amplitude R) where
  star := conj
  star_involutive a := by
    show a.conj.conj = a
    ext <;> simp [conj_re, conj_im]
  star_mul a b := by
    show (a * b).conj = b.conj * a.conj
    ext
    · simp only [conj_re, conj_im, mul_re]
      ring
    · simp only [conj_re, conj_im, mul_im]
      ring
  star_add a b := by
    show (a + b).conj = a.conj + b.conj
    ext
    · rfl
    · simp only [conj_im, add_im]
      ring

theorem star_eq_conj (a : Amplitude R) : star a = a.conj := rfl

end Amplitude

namespace SquareMatrix

variable {A : Type}

/-! ## Operators as matrices -/

/-- A square matrix as a function of row and column. -/
def toMatrix [Zero A] (m : SquareMatrix A) (d : Nat) : Matrix (Fin d) (Fin d) A :=
  fun i j => m.get i j

/-- Square matrices of one dimension are equal when their entries are. -/
theorem ext_toMatrix [Zero A] {a b : SquareMatrix A} {d : Nat} (ha : a.dim = d) (hb : b.dim = d)
    (h : a.toMatrix d = b.toMatrix d) : a = b := by
  obtain ⟨dim, xs, hxs⟩ := a
  obtain ⟨dim', ys, hys⟩ := b
  obtain rfl : dim = d := ha
  obtain rfl : dim' = dim := hb
  congr 1
  refine ext_entries (hxs.trans hys.symm) fun t ht => ?_
  rw [hxs] at ht
  have hpos : 0 < dim' := Nat.pos_of_mul_pos_left (Nat.zero_lt_of_lt ht)
  have hcell := congrFun (congrFun h ⟨t / dim', Nat.div_lt_of_lt_mul ht⟩)
    ⟨t % dim', Nat.mod_lt _ hpos⟩
  unfold toMatrix get at hcell
  rwa [Nat.div_add_mod'] at hcell

variable [CommRing A] {d : Nat}

theorem toMatrix_identity (d : Nat) : (identity d : SquareMatrix A).toMatrix d = 1 := by
  ext i j
  rw [toMatrix, get_identity i.isLt j.isLt, Matrix.one_apply]
  simp [Fin.ext_iff]

theorem toMatrix_of_mul_ok [BEq A] [LawfulBEq A] {a b product : SquareMatrix A}
    (h : a.mul b = .ok product) (ha : a.dim = d) :
    product.dim = d ∧ product.toMatrix d = a.toMatrix d * b.toMatrix d := by
  obtain ⟨-, hdim, hget⟩ := get_of_mul_ok h
  rw [ha] at hdim hget
  refine ⟨hdim, ?_⟩
  ext i j
  rw [toMatrix, hget i j i.isLt j.isLt, Matrix.mul_apply, Finset.sum_range]
  rfl

/-! ## Unitary operators -/

variable [StarRing A]

/-- A `d` by `d` matrix that is unitary. -/
def Unitary (m : SquareMatrix A) (d : Nat) : Prop :=
  m.dim = d ∧ m.toMatrix d ∈ Matrix.unitaryGroup (Fin d) A

theorem unitary_identity (d : Nat) : (identity d : SquareMatrix A).Unitary d :=
  ⟨rfl, by rw [toMatrix_identity]; exact one_mem _⟩

theorem Unitary.of_mul_ok [BEq A] [LawfulBEq A] {a b product : SquareMatrix A} (ha : a.Unitary d)
    (hb : b.Unitary d) (h : a.mul b = .ok product) : product.Unitary d := by
  obtain ⟨hdim, hproduct⟩ := toMatrix_of_mul_ok h ha.1
  exact ⟨hdim, hproduct ▸ mul_mem ha.2 hb.2⟩

/-- The rows of a unitary matrix are orthonormal, and no others. -/
theorem unitary_iff {m : SquareMatrix A} :
    m.Unitary d ↔ m.dim = d ∧ ∀ i j, i < d → j < d →
      ∑ k ∈ range d, m.get i k * star (m.get j k) = if i = j then 1 else 0 := by
  refine and_congr_right fun _ => ?_
  rw [Matrix.mem_unitaryGroup_iff, ← Matrix.ext_iff]
  constructor
  · intro h i j hi hj
    have hcell := h ⟨i, hi⟩ ⟨j, hj⟩
    rw [Matrix.mul_apply, Matrix.one_apply] at hcell
    rw [Finset.sum_range]
    simpa [Fin.ext_iff, Matrix.star_apply, toMatrix] using hcell
  · intro h i j
    have hcell := h i j i.isLt j.isLt
    rw [Finset.sum_range] at hcell
    rw [Matrix.mul_apply, Matrix.one_apply]
    simpa [Fin.ext_iff, Matrix.star_apply, toMatrix] using hcell

/-- **A lift of a unitary operator is unitary.** Rows that differ outside the targets meet in no
column; two others share the columns that patch them, and there stand the rows of the operator. -/
theorem Unitary.lifted {n : Nat} {operator : SquareMatrix A} {targets : List Nat}
    (hu : operator.Unitary (2 ^ targets.length)) (h : Placed n operator targets) :
    (lifted n operator targets).Unitary (2 ^ n) := by
  obtain ⟨-, hrows⟩ := unitary_iff.mp hu
  refine unitary_iff.mpr ⟨rfl, fun r s hr hs => ?_⟩
  by_cases hclear : clear targets r = clear targets s
  · calc ∑ c ∈ range (2 ^ n), (OpenQasm.lifted n operator targets).get r c *
          star ((OpenQasm.lifted n operator targets).get s c)
        = ∑ c ∈ range (2 ^ n), if clear targets r = clear targets c
            then operator.get (gather targets r) (gather targets c) *
              star (operator.get (gather targets s) (gather targets c)) else 0 := by
          refine sum_congr rfl fun c hc => ?_
          rw [get_lifted hr (mem_range.mp hc), get_lifted hs (mem_range.mp hc), ← hclear]
          split
          · rfl
          · rw [zero_mul]
      _ = ∑ j ∈ range (2 ^ targets.length), operator.get (gather targets r) j *
            star (operator.get (gather targets s) j) :=
          sum_patch h.nodup h.lt hr fun j _ => operator.get (gather targets r) j *
            star (operator.get (gather targets s) j)
      _ = if gather targets r = gather targets s then 1 else 0 :=
          hrows _ _ (gather_lt _ r) (gather_lt _ s)
      _ = if r = s then 1 else 0 := by
          have hiff : gather targets r = gather targets s ↔ r = s := by
            constructor
            · intro hg
              rw [← patch_gather targets r, ← patch_gather targets s, hg, patch_congr hclear]
            · rintro rfl
              rfl
          simp only [hiff]
  · have hne : r ≠ s := fun he => hclear (he ▸ rfl)
    rw [if_neg hne]
    refine sum_eq_zero fun c hc => ?_
    rw [get_lifted hr (mem_range.mp hc), get_lifted hs (mem_range.mp hc)]
    by_cases hrow : clear targets r = clear targets c
    · have hother : clear targets s ≠ clear targets c := fun hs => hclear (hrow.trans hs.symm)
      rw [if_neg hother, star_zero, mul_zero]
    · rw [if_neg hrow, zero_mul]

/-- **The product with the adjoint is the identity**, as the algebra of operators computes it. -/
theorem Unitary.mul_adjoint [BEq A] [LawfulBEq A] {m : SquareMatrix A} (h : m.Unitary d) :
    m.mul (m.adjoint star) = .ok (identity d) := by
  obtain ⟨rfl, hu⟩ := h
  have hadjoint : (m.adjoint star).toMatrix m.dim = star (m.toMatrix m.dim) := by
    ext i j
    exact get_ofFn _ i.isLt j.isLt
  have hok : ∃ product, m.mul (m.adjoint star) = .ok product := by
    unfold mul
    rw [if_pos (show (m.adjoint star).dim = m.dim from rfl)]
    exact ⟨_, rfl⟩
  obtain ⟨product, hproduct⟩ := hok
  obtain ⟨hdim, hmatrix⟩ := toMatrix_of_mul_ok hproduct rfl
  rw [hadjoint, Matrix.mem_unitaryGroup_iff.mp hu, ← toMatrix_identity] at hmatrix
  have hidentity : product = identity m.dim := ext_toMatrix hdim rfl hmatrix
  rw [hproduct, hidentity]

end SquareMatrix

/-! ## Gates of unitary operators -/

section Gates

variable {A : Type} [CommRing A] [StarRing A]

/-- All operators in a gate are unitary. -/
def Gate.OfUnitaries (gate : Gate A) : Prop := gate.Every fun matrix => matrix.Unitary matrix.dim

/-- All operators in a circuit are unitary. -/
def Circuit.OfUnitaries (circuit : Circuit A) : Prop :=
  circuit.Every fun matrix => matrix.Unitary matrix.dim

variable [BEq A]

mutual

/-- **A gate of unitary operators resolves to a unitary one.** -/
theorem Gate.unitary_of_resolve [LawfulBEq A] : ∀ (gate : Gate A) {operator : SquareMatrix A},
    gate.OfUnitaries → gate.resolve = .ok operator → operator.Unitary operator.dim
  | .operator matrix, operator, hu, h => by
    rw [Gate.OfUnitaries, Gate.Every] at hu
    rw [Gate.resolve] at h
    rwa [← Except.ok.inj h]
  | .composite q circuit, operator, hu, h => by
    rw [Gate.OfUnitaries, Gate.Every] at hu
    obtain ⟨-, h⟩ := Gate.resolve_composite_eq_ok.mp h
    have hunitary := Circuit.unitary_of_resolveAfter circuit hu (SquareMatrix.unitary_identity _) h
    rwa [hunitary.1]

/-- Running a circuit of unitary operators after a unitary one. -/
theorem Circuit.unitary_of_resolveAfter [LawfulBEq A] : ∀ (circuit : Circuit A) {q : Nat}
    {before operator : SquareMatrix A}, circuit.OfUnitaries → before.Unitary (2 ^ q) →
    Gate.resolveAfter q before circuit = .ok operator → operator.Unitary (2 ^ q)
  | .done, q, before, operator, _, hb, h => by
    rw [Gate.resolveAfter] at h
    rwa [← Except.ok.inj h]
  | .step gate targets rest, q, before, operator, hu, hb, h => by
    rw [Circuit.OfUnitaries, Circuit.Every] at hu
    obtain ⟨inner, after, hg, ha, hr⟩ := Gate.of_resolveAfter_step h
    obtain ⟨hplaced, -, -⟩ := Gate.of_advance_ok ha
    have hinner := Gate.unitary_of_resolve gate hu.1 hg
    rw [hplaced.dim_eq] at hinner
    rw [Gate.advance_eq_mul hplaced] at ha
    have hafter := (hinner.lifted hplaced).of_mul_ok hb ha
    exact Circuit.unitary_of_resolveAfter rest hu.2 hafter hr

end

end Gates

/-! ## The primitives -/

namespace Gate

/-- A two by two matrix of this form is unitary when the masses of its column add up to one. -/
theorem unitary_square2 {A : Type} [CommRing A] [StarRing A] {a b : A}
    (h : a * star a + b * star b = 1) : (square2 (star a) (-b) (star b) a).Unitary 2 := by
  refine SquareMatrix.unitary_iff.mpr ⟨rfl, fun i j hi hj => ?_⟩
  simp only [sum_range_succ, sum_range_zero, SquareMatrix.get, entry, square2, zero_add]
  interval_cases i <;> interval_cases j <;> simp
  · linear_combination h
  · ring
  · ring
  · linear_combination h

section Flip

variable {R : Type} [ExactScalar R]

/-- The controlled flip permutes the basis. -/
theorem unitary_controlledNot : (controlledNot : Gate (Amplitude R)).OfUnitaries := by
  unfold controlledNot OfUnitaries Every
  refine SquareMatrix.unitary_iff.mpr ⟨rfl, fun i j hi hj => ?_⟩
  change i < 4 at hi
  change j < 4 at hj
  simp only [sum_range_succ, sum_range_zero, SquareMatrix.get, entry]
  interval_cases i <;> interval_cases j <;> simp

end Flip

variable {R : Type} [RealScalar R]

/-- The square of a real factor is the mass of a number of magnitude one times the factor. -/
theorem unit_times_mul_star (t x : R) :
    (Amplitude.unit t).times x * star ((Amplitude.unit t).times x) = ⟨x * x, 0⟩ := by
  have hunit := RealScalar.sin_mul_self_add_cos_mul_self t
  rw [Amplitude.star_eq_conj]
  ext
  · simp only [Amplitude.mul_re, Amplitude.conj, Amplitude.times, Amplitude.unit]
    linear_combination x * x * hunit
  · simp only [Amplitude.mul_im, Amplitude.conj, Amplitude.times, Amplitude.unit]
    ring

/-- **The rotation matrix is unitary**, whatever the angles are. -/
theorem unitary_rotation (theta phi lambda : R) : (rotation theta phi lambda).OfUnitaries := by
  have hhalf := RealScalar.sin_mul_self_add_cos_mul_self (Scalar.half theta)
  unfold rotation OfUnitaries Every rotationMatrix
  refine unitary_square2 ?_
  rw [unit_times_mul_star, unit_times_mul_star]
  ext
  · rw [Amplitude.add_re, Amplitude.one_re, add_comm, hhalf]
  · rw [Amplitude.add_im, Amplitude.one_im, add_zero]

end Gate

/-! ## Instantiated gates -/

namespace GateTable

variable {R : Type} [RealScalar R] {table : GateTable}

/-- **A gate that is instantiated and resolves is unitary.** -/
theorem unitary_of_instantiate {gate : GateName} {parameters : List R}
    {instantiated : Gate (Amplitude R)} {operator : SquareMatrix (Amplitude R)}
    (h : table.instantiate gate parameters = .ok instantiated)
    (hr : instantiated.resolve = .ok operator) : operator.Unitary operator.dim :=
  instantiated.unitary_of_resolve
    (every_of_instantiateWithin Gate.unitary_rotation Gate.unitary_controlledNot h) hr

end GateTable

end OpenQasm
