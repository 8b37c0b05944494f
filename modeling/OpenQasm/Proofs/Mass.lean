import Mathlib.Algebra.BigOperators.Field
import OpenQasm.Proofs.Unitary

/-!
# The mass of a state vector

The mass of a vector is a sum over its entries, the inner product of the vector with itself. What
the operations on vectors do to it:

* `mass_applyOnTargets`: a unitary operator leaves it as it is, on whatever bits it acts.
* `mass_tensor`, `mass_of_zeroState`: fresh qubits multiply it by one.
* `mass_of_measure`, `mass_of_reset`: a measurement or a projection that succeeds leaves a vector of
  mass one, whatever the mass was, since it divides by the root of the mass that it keeps.
-/

namespace OpenQasm

open BitIndex Kernel Finset Matrix

namespace Amplitude

section Exact

variable {R : Type} [ExactScalar R]

theorem mass_zero : (0 : Amplitude R).mass = 0 := by
  simp [mass, zero_re, zero_im]

theorem mass_one : (1 : Amplitude R).mass = 1 := by
  simp [mass, one_re, one_im]

theorem mass_mul (a b : Amplitude R) : (a * b).mass = a.mass * b.mass := by
  simp only [mass, mul_re, mul_im]
  ring

theorem re_star_mul_self (a : Amplitude R) : (star a * a).re = a.mass := by
  rw [star_eq_conj, mul_re, conj_re, conj_im, mass]
  ring

theorem re_sum {ι : Type} (s : Finset ι) (f : ι → Amplitude R) :
    (∑ i ∈ s, f i).re = ∑ i ∈ s, (f i).re :=
  map_sum (⟨⟨re, zero_re⟩, add_re⟩ : Amplitude R →+ R) f s

end Exact

theorem mass_divBy {R : Type} [RealScalar R] (a : Amplitude R) (x : R) :
    (a.divBy x).mass = a.mass / (x * x) := by
  simp only [mass, divBy]
  ring

end Amplitude

namespace StateVector

variable {R : Type}

/-! ## Sums as they are computed -/

/-- Adding each number to the cell that it belongs to: a cell holds its numbers, added in order. -/
theorem getElem?_tally [Zero R] [Add R] (key : Nat → Nat) (f : Nat → R) {cells k : Nat}
    (h : k < cells) (n : Nat) :
    (n.fold (fun i _ acc => acc.modify (key i) (· + f i)) (Array.replicate cells 0))[k]? =
      some (((List.range n).filter (key · == k)).foldl (fun acc i => acc + f i) 0) := by
  induction n with
  | zero => simp [h]
  | succ n ih =>
    rw [Nat.fold_succ, Array.getElem?_modify, ih, List.range_succ, List.filter_append,
      List.foldl_append]
    by_cases hk : key n = k <;> simp [hk]

theorem size_tally [Zero R] [Add R] (key : Nat → Nat) (f : Nat → R) (cells n : Nat) :
    (n.fold (fun i _ acc => acc.modify (key i) (· + f i)) (Array.replicate cells 0)).size =
      cells := by
  induction n with
  | zero => simp
  | succ n ih => rw [Nat.fold_succ, Array.size_modify, ih]

theorem toList_tally [Zero R] [Add R] (key : Nat → Nat) (f : Nat → R) (cells n : Nat) :
    (n.fold (fun i _ acc => acc.modify (key i) (· + f i)) (Array.replicate cells 0)).toList =
      (List.range cells).map fun k =>
        ((List.range n).filter (key · == k)).foldl (fun acc i => acc + f i) 0 := by
  refine List.ext_getElem? fun k => ?_
  rw [Array.getElem?_toList, List.getElem?_map]
  rcases Nat.lt_or_ge k cells with hk | hk
  · rw [getElem?_tally key f hk, List.getElem?_range hk, Option.map_some]
  · rw [Array.getElem?_eq_none (by rwa [size_tally]), List.getElem?_eq_none (by simpa using hk),
      Option.map_none]

theorem size_outcomeMasses [Scalar R] (v : StateVector (Amplitude R)) (offset width : Nat) :
    (v.outcomeMasses offset width).size = 2 ^ width := size_tally _ _ _ _

/-! ## Sums over entries -/

section Exact

variable [ExactScalar R]

theorem mass_eq_sum (v : StateVector (Amplitude R)) :
    v.mass = ∑ i ∈ range v.size, (v.get i).mass := sumTo_eq_sum _ _

/-- The entries that carry a value in some bits have this mass together. -/
def fieldMass (v : StateVector (Amplitude R)) (offset width outcome : Nat) : R :=
  ∑ i ∈ range v.size, if field offset width i = outcome then (v.get i).mass else 0

/-- A sum of products over the cells of a grid. -/
theorem sum_range_cells (rows columns : Nat) (f g : Nat → R) :
    ∑ t ∈ range (rows * columns), f (t / columns) * g (t % columns) =
      (∑ i ∈ range rows, f i) * ∑ j ∈ range columns, g j := by
  rw [sum_range_grid, sum_mul_sum]
  refine sum_congr rfl fun i _ => sum_congr rfl fun j hj => ?_
  rw [cell_div (mem_range.mp hj), cell_mod (mem_range.mp hj)]

/-! ## Fresh qubits -/

/-- **The mass of a Kronecker product** is the product of the masses. -/
theorem mass_tensor (v w : StateVector (Amplitude R)) : (v.tensor w).mass = v.mass * w.mass := by
  have hsize : (v.tensor w).size = v.size * w.size := size_tabulate _ _
  rw [mass_eq_sum, mass_eq_sum, mass_eq_sum, hsize, ← sum_range_cells]
  refine sum_congr rfl fun t ht => ?_
  have hget : (v.tensor w).get t = v.get (t / w.size) * w.get (t % w.size) :=
    entry_tabulate _ (mem_range.mp ht)
  rw [hget, Amplitude.mass_mul]

/-- Qubits that are all `0` have mass one. -/
theorem mass_of_zeroState {width : Nat} {v : StateVector (Amplitude R)}
    (h : zeroState width = .ok v) : v.mass = 1 := by
  rw [mass_eq_sum, size_of_zeroState h,
    sum_eq_single_of_mem 0 (mem_range.mpr (Nat.two_pow_pos width))]
  · rw [get_zeroState h (Nat.two_pow_pos width), if_pos rfl, Amplitude.mass_one]
  · intro i hi hne
    rw [get_zeroState h (mem_range.mp hi), if_neg hne, Amplitude.mass_zero]

/-! ## Unitary operators -/

/-- The mass is the inner product of the vector with itself. -/
theorem mass_eq_re_dotProduct {v : StateVector (Amplitude R)} {d : Nat} (hv : v.size = d) :
    v.mass = (star (fun i : Fin d => v.get i) ⬝ᵥ fun i : Fin d => v.get i).re := by
  subst hv
  rw [mass_eq_sum, sum_range, dotProduct, Amplitude.re_sum]
  exact sum_congr rfl fun i _ => (Amplitude.re_star_mul_self _).symm

/-- The dense product with a unitary matrix keeps the inner product. -/
theorem mass_matApply {m : SquareMatrix (Amplitude R)} {d : Nat} (hm : m.Unitary d)
    {v : StateVector (Amplitude R)} (hv : v.size = d) :
    (⟨matApply m.entries d v.entries⟩ : StateVector (Amplitude R)).mass = v.mass := by
  have hsize : (⟨matApply m.entries d v.entries⟩ : StateVector (Amplitude R)).size = d :=
    size_tabulate _ _
  have hentries : (fun i : Fin d =>
      (⟨matApply m.entries d v.entries⟩ : StateVector (Amplitude R)).get i) =
      m.toMatrix d *ᵥ fun i : Fin d => v.get i := by
    funext i
    show entry (matApply m.entries d v.entries) i = _
    rw [entry_matApply _ _ i.isLt, sum_range, mulVec, dotProduct]
    refine sum_congr rfl fun j _ => ?_
    rw [SquareMatrix.toMatrix, SquareMatrix.get, hm.1]
    rfl
  rw [mass_eq_re_dotProduct hsize, mass_eq_re_dotProduct hv, hentries, star_mulVec,
    dotProduct_mulVec, vecMul_vecMul, ← star_eq_conjTranspose,
    Matrix.mem_unitaryGroup_iff'.mp hm.2, vecMul_one]

/-- **A unitary operator keeps the mass**, on whatever bits it acts: its lift is unitary. -/
theorem mass_applyOnTargets {n : Nat} {operator : SquareMatrix (Amplitude R)} {targets : List Nat}
    (hu : operator.Unitary (2 ^ targets.length)) (hplaced : Placed n operator targets)
    {v : StateVector (Amplitude R)} (hv : v.size = 2 ^ n) :
    (⟨applyOnTargets v.entries operator.entries targets⟩ : StateVector (Amplitude R)).mass =
      v.mass := by
  rw [← matApply_lifted hplaced hv]
  exact mass_matApply (hu.lifted hplaced) hv

/-! ## The masses of outcomes -/

/-- A sum over some of the indices, as it is computed. -/
theorem foldl_filter_range (f : Nat → R) (p : Nat → Bool) (n : Nat) :
    ((List.range n).filter p).foldl (fun acc i => acc + f i) 0 =
      ∑ i ∈ range n, if p i = true then f i else 0 := by
  rw [List.foldl_filter, ← foldl_range_add]
  congr 1
  funext acc i
  rw [apply_ite (acc + ·), add_zero]

theorem getD_tally (key : Nat → Nat) (f : Nat → R) {cells outcome : Nat} (h : outcome < cells)
    (n : Nat) :
    (n.fold (fun i _ acc => acc.modify (key i) (· + f i)) (Array.replicate cells 0)).getD
        outcome 0 = ∑ i ∈ range n, if key i = outcome then f i else 0 := by
  rw [Array.getD_eq_getD_getElem?, getElem?_tally key f h, Option.getD_some, foldl_filter_range]
  simp only [beq_iff_eq]

theorem getD_outcomeMasses (v : StateVector (Amplitude R)) {offset width outcome : Nat}
    (h : outcome < 2 ^ width) :
    (v.outcomeMasses offset width).getD outcome 0 = v.fieldMass offset width outcome :=
  getD_tally _ _ h _

theorem clearMass_eq (v : StateVector (Amplitude R)) (offset width : Nat) :
    v.clearMass offset width = v.fieldMass offset width 0 := by
  unfold clearMass fieldMass
  induction v.size with
  | zero => rfl
  | succ n ih =>
    rw [Nat.fold_succ, ih, sum_range_succ]
    split <;> simp

end Exact

/-! ## The outcome that is selected -/

section Selection

variable [Scalar R]

/-- A position that holds a mass which is not faint. -/
def Solid (masses : List R) (k : Nat) : Prop := ∃ m, masses[k]? = some m ∧ Scalar.zeroMass ≤ m

theorem solid_of_lastSolid {masses : List R} {k : Nat} (h : lastSolid? masses = some k) :
    Solid masses k := by
  unfold lastSolid? at h
  induction masses using List.reverseRecOn generalizing k with
  | nil => cases h
  | append_singleton ms m ih =>
    simp only [List.zipIdx_append, List.foldl_append, List.zipIdx_cons, List.zipIdx_nil,
      List.foldl_cons, List.foldl_nil] at h
    split at h
    · rename_i hm
      obtain rfl := Option.some.inj h
      exact ⟨m, by simp, hm⟩
    · obtain ⟨other, hother, hsolid⟩ := ih h
      obtain ⟨hk, -⟩ := List.getElem?_eq_some_iff.mp hother
      exact ⟨other, (List.getElem?_append_left hk).trans hother, hsolid⟩

/-- A list that holds a mass which is not faint has a last one. -/
theorem lastSolid_ne_none {masses : List R} {k : Nat} (h : Solid masses k) :
    lastSolid? masses ≠ none := by
  unfold lastSolid?
  induction masses using List.reverseRecOn generalizing k with
  | nil =>
    obtain ⟨m, hm, -⟩ := h
    simp at hm
  | append_singleton ms m ih =>
    simp only [List.zipIdx_append, List.foldl_append, List.zipIdx_cons, List.zipIdx_nil,
      List.foldl_cons, List.foldl_nil]
    split
    · exact Option.some_ne_none _
    · rename_i hfaint
      obtain ⟨found, hfound, hsolid⟩ := h
      rcases Nat.lt_or_ge k ms.length with hk | hk
      · exact ih ⟨found, by rwa [List.getElem?_append_left hk] at hfound, hsolid⟩
      · rw [List.getElem?_append_right hk] at hfound
        rw [List.mem_singleton.mp (List.mem_of_getElem? hfound)] at hsolid
        exact absurd hsolid hfaint

theorem solid_of_firstAbove {draw : R} {masses : List R} {k j : Nat} {acc : R}
    (h : firstAbove? draw masses k acc = some j) : ∃ i, j = k + i ∧ Solid masses i := by
  induction masses generalizing k acc with
  | nil => cases h
  | cons m ms ih =>
    rw [firstAbove?] at h
    split at h
    · rename_i hm
      obtain rfl := Option.some.inj h
      exact ⟨0, rfl, m, rfl, hm.1⟩
    · obtain ⟨i, rfl, hi⟩ := ih h
      exact ⟨i + 1, by omega, hi⟩

/-- The outcome that a draw selects has some mass. -/
theorem solid_of_selectOutcome {masses : List R} {u : R} {outcome : Nat}
    (h : selectOutcome masses u = .ok outcome) : Solid masses outcome := by
  unfold selectOutcome at h
  dsimp only at h
  split at h
  · cases h
  split at h
  · cases h
  · rename_i last hlast
    obtain rfl := Except.ok.inj h
    cases hfirst : firstAbove? (u * masses.foldl (· + ·) 0) masses 0 0 with
    | none => exact solid_of_lastSolid hlast
    | some j =>
      obtain ⟨i, rfl, hi⟩ := solid_of_firstAbove hfirst
      rwa [Option.getD_some, Nat.zero_add]

end Selection

/-! ## Collapse -/

variable [RealScalar R]

/-- Keeping the entries of one outcome, divided by the root of their mass, leaves mass one. -/
theorem mass_collapse {v : StateVector (Amplitude R)} {offset width outcome : Nat}
    (h : Scalar.zeroMass ≤ v.fieldMass offset width outcome) :
    (v.collapse offset width outcome (Scalar.sqrt (v.fieldMass offset width outcome))).mass =
      1 := by
  have hpos := RealScalar.zeroMass_pos.trans_le h
  have hsqrt := RealScalar.sqrt_mul_self _ hpos.le
  set kept := v.fieldMass offset width outcome
  have hsize : (v.collapse offset width outcome (Scalar.sqrt kept)).size = v.size :=
    size_tabulate _ _
  rw [mass_eq_sum, hsize]
  calc ∑ i ∈ range v.size, ((v.collapse offset width outcome (Scalar.sqrt kept)).get i).mass
      = ∑ i ∈ range v.size,
          (if field offset width i = outcome then (v.get i).mass else 0) / kept := by
        refine sum_congr rfl fun i hi => ?_
        have hget : (v.collapse offset width outcome (Scalar.sqrt kept)).get i =
            (if field offset width i = outcome then v.get i else 0).divBy (Scalar.sqrt kept) :=
          entry_tabulate _ (mem_range.mp hi)
        rw [hget, Amplitude.mass_divBy, hsqrt]
        split
        · rfl
        · rw [Amplitude.mass_zero]
    _ = kept / kept := (Finset.sum_div ..).symm
    _ = 1 := div_self hpos.ne'

/-- Projecting some bits onto zero leaves mass one. -/
theorem mass_of_reset {v w : StateVector (Amplitude R)} {offset width : Nat}
    (h : v.reset offset width = .ok w) : w.mass = 1 := by
  obtain ⟨-, -, h⟩ := bind_eq_ok.mp h
  dsimp only at h
  split at h
  · cases h
  · rename_i hkept
    obtain rfl := Except.ok.inj h
    rw [clearMass_eq] at hkept ⊢
    exact mass_collapse (not_lt.mp hkept)

/-- **A measurement leaves mass one**, whatever is drawn. -/
theorem mass_of_measure {v : StateVector (Amplitude R)} {offset width : Nat} {u : R}
    {measured : Measured R} (h : v.measure offset width u = .ok measured) :
    measured.after.mass = 1 := by
  obtain ⟨-, -, h⟩ := bind_eq_ok.mp h
  obtain ⟨outcome, houtcome, h⟩ := bind_eq_ok.mp h
  obtain rfl := Except.ok.inj h
  obtain ⟨m, hm, hsolid⟩ := solid_of_selectOutcome houtcome
  obtain ⟨hlt, -⟩ := List.getElem?_eq_some_iff.mp hm
  rw [Array.length_toList, size_outcomeMasses] at hlt
  have hkept : (v.outcomeMasses offset width).getD outcome 0 = m := by
    rw [Array.getD_eq_getD_getElem?, ← Array.getElem?_toList, hm, Option.getD_some]
  rw [getD_outcomeMasses v hlt] at hkept
  show (v.collapse offset width outcome
    (Scalar.sqrt ((v.outcomeMasses offset width).getD outcome 0))).mass = 1
  rw [getD_outcomeMasses v hlt]
  exact mass_collapse (hkept ▸ hsolid)

end StateVector

end OpenQasm
