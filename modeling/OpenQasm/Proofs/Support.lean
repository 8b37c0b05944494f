import Mathlib.Algebra.BigOperators.Field
import OpenQasm.Proofs.Layout
import OpenQasm.Proofs.Mass

/-!
# What the entries of a state vector carry

After a measurement every entry that is not zero carries the outcome in the bits that were measured.
A vector that `Carries` an outcome in some bits keeps it under everything that is done to other
bits, and under every collapse, also of those bits themselves; measuring them finds it again.

* `Carries.tensor`, `Carries.applyOnTargets`, `Carries.collapse`, `Carries.of_reset`: one lemma for
  each change of a vector.
* **`Carries.outcome_eq`**: every measurement of the bits finds what they carry.
* **`Carries.measure_eq`**: a vector of mass one is measured without a change.
-/

namespace OpenQasm

open BitIndex Kernel Finset

namespace Amplitude

variable {R : Type} [RealScalar R]

theorem zero_divBy (x : R) : (0 : Amplitude R).divBy x = 0 := by
  ext <;> exact zero_div x

theorem divBy_one (a : Amplitude R) : a.divBy 1 = a := by
  ext <;> exact div_one _

end Amplitude

namespace StateVector

variable {R : Type}

/-- Every entry that is not zero carries `outcome` in the bits at `offset`. -/
def Carries [Scalar R] (v : StateVector (Amplitude R)) (offset width outcome : Nat) : Prop :=
  ∀ i, v.get i ≠ 0 → field offset width i = outcome

theorem lt_of_get_ne_zero {A : Type} [Zero A] {v : StateVector A} {i : Nat} (h : v.get i ≠ 0) :
    i < v.size := by
  by_contra hi
  refine h ?_
  rw [get, entry, Array.getD_eq_getD_getElem?, Array.getElem?_eq_none (Nat.not_lt.mp hi)]
  rfl

section Exact

variable [ExactScalar R] {v : StateVector (Amplitude R)} {offset width outcome : Nat}

/-- Fresh qubits that are `0` leave the entries where they were. -/
theorem get_tensor_zeroState {fresh : StateVector (Amplitude R)} {added : Nat}
    (hfresh : zeroState added = .ok fresh) {i : Nat} (hi : i < (fresh.tensor v).size) :
    (fresh.tensor v).get i = if i / v.size = 0 then v.get (i % v.size) else 0 := by
  have hsize : (fresh.tensor v).size = fresh.size * v.size := size_tabulate _ _
  have hget : (fresh.tensor v).get i = fresh.get (i / v.size) * v.get (i % v.size) :=
    entry_tabulate _ (hsize ▸ hi)
  have hlt : i / v.size < fresh.size := Nat.div_lt_of_lt_mul (by rwa [Nat.mul_comm, ← hsize])
  rw [size_of_zeroState hfresh] at hlt
  rw [hget, get_zeroState hfresh hlt, ite_mul, one_mul, zero_mul]

theorem Carries.tensor {n : Nat} (h : v.Carries offset width outcome) (hv : v.size = 2 ^ n)
    (hn : offset + width ≤ n) {fresh : StateVector (Amplitude R)} {added : Nat}
    (hfresh : zeroState added = .ok fresh) : (fresh.tensor v).Carries offset width outcome := by
  intro i hi
  rw [get_tensor_zeroState hfresh (lt_of_get_ne_zero hi)] at hi
  have hlow := h (i % v.size) fun hz => hi (by rw [hz, ite_self])
  rwa [hv, field_mod hn] at hlow

/-- An operator on other bits leaves what the bits carry. -/
theorem Carries.applyOnTargets (h : v.Carries offset width outcome) {targets : List Nat}
    (hother : ∀ p ∈ block offset width, p ∉ targets) (matrix : Array (Amplitude R)) :
    (⟨applyOnTargets v.entries matrix targets⟩ : StateVector (Amplitude R)).Carries
      offset width outcome := by
  intro i hi
  have hlt := lt_of_get_ne_zero hi
  rw [size, size_applyOnTargets] at hlt
  rw [get, entry_applyOnTargets _ _ _ hlt] at hi
  obtain ⟨j, -, hj⟩ := exists_ne_zero_of_sum_ne_zero hi
  rw [← field_patch hother i j]
  exact h _ fun hz => hj (by rw [get] at hz; rw [hz, mul_zero])

end Exact

variable [RealScalar R] {v : StateVector (Amplitude R)} {offset width outcome : Nat}

theorem get_collapse {i : Nat} (hi : i < v.size) (norm : R) :
    (v.collapse offset width outcome norm).get i =
      if field offset width i = outcome then (v.get i).divBy norm else 0 := by
  have hget : (v.collapse offset width outcome norm).get i =
      (if field offset width i = outcome then v.get i else 0).divBy norm :=
    entry_tabulate _ hi
  rw [hget, apply_ite (Amplitude.divBy · norm), Amplitude.zero_divBy]

/-- Only entries that carry the outcome are left by a collapse, and none is new. -/
theorem of_get_collapse_ne_zero {norm : R} {i : Nat}
    (h : (v.collapse offset width outcome norm).get i ≠ 0) :
    field offset width i = outcome ∧ v.get i ≠ 0 := by
  have hi : i < v.size := by
    have hlt := lt_of_get_ne_zero h
    rwa [Machine.size_collapse] at hlt
  rw [get_collapse hi] at h
  refine ⟨by_contra fun hne => h (if_neg hne), fun hz => h ?_⟩
  rw [hz, Amplitude.zero_divBy, ite_self]

theorem carries_collapse (norm : R) :
    (v.collapse offset width outcome norm).Carries offset width outcome :=
  fun _ hi => (of_get_collapse_ne_zero hi).1

theorem Carries.collapse (h : v.Carries offset width outcome) (offset' width' outcome' : Nat)
    (norm : R) : (v.collapse offset' width' outcome' norm).Carries offset width outcome :=
  fun i hi => h i (of_get_collapse_ne_zero hi).2

theorem Carries.of_reset (h : v.Carries offset width outcome) {offset' width' : Nat}
    {w : StateVector (Amplitude R)} (hw : v.reset offset' width' = .ok w) :
    w.Carries offset width outcome := by
  obtain ⟨-, -, hw⟩ := bind_eq_ok.mp hw
  dsimp only at hw
  split at hw
  · cases hw
  · obtain rfl := Except.ok.inj hw
    exact h.collapse _ _ _ _

/-- What a measurement finds has some mass, and is what is kept. -/
theorem of_measure_ok {u : R} {w : StateVector (Amplitude R)}
    (h : v.measure offset width u = .ok ⟨outcome, w⟩) :
    outcome < 2 ^ width ∧ Scalar.zeroMass ≤ v.fieldMass offset width outcome ∧
      w = v.collapse offset width outcome (Scalar.sqrt (v.fieldMass offset width outcome)) := by
  obtain ⟨-, -, h⟩ := bind_eq_ok.mp h
  obtain ⟨found, hfound, h⟩ := bind_eq_ok.mp h
  obtain ⟨rfl, rfl⟩ := Measured.mk.inj (Except.ok.inj h)
  obtain ⟨m, hm, hsolid⟩ := solid_of_selectOutcome hfound
  obtain ⟨hlt, -⟩ := List.getElem?_eq_some_iff.mp hm
  rw [Array.length_toList, size_outcomeMasses] at hlt
  have hkept : (v.outcomeMasses offset width).getD found 0 = m := by
    rw [Array.getD_eq_getD_getElem?, ← Array.getElem?_toList, hm, Option.getD_some]
  rw [getD_outcomeMasses v hlt] at hkept ⊢
  exact ⟨hlt, hkept ▸ hsolid, rfl⟩

/-- **Where all entries carry an outcome**, every measurement of the bits finds it. -/
theorem Carries.outcome_eq (h : v.Carries offset width outcome) {u : R} {found : Nat}
    {w : StateVector (Amplitude R)} (hw : v.measure offset width u = .ok ⟨found, w⟩) :
    found = outcome := by
  obtain ⟨-, hsolid, -⟩ := of_measure_ok hw
  have hpos : v.fieldMass offset width found ≠ 0 :=
    (RealScalar.zeroMass_pos.trans_le hsolid).ne'
  obtain ⟨i, -, hi⟩ := exists_ne_zero_of_sum_ne_zero hpos
  have hfield : field offset width i = found := by_contra fun hne => hi (if_neg hne)
  rw [if_pos hfield] at hi
  rw [← hfield]
  exact h i fun hz => hi (by rw [hz, Amplitude.mass_zero])

/-! ## Measuring again -/

theorem toList_outcomeMasses (v : StateVector (Amplitude R)) (offset width : Nat) :
    (v.outcomeMasses offset width).toList =
      (List.range (2 ^ width)).map (v.fieldMass offset width) := by
  refine (toList_tally ..).trans (List.map_congr_left fun k _ => ?_)
  simp only [foldl_filter_range, beq_iff_eq, fieldMass]

/-- Bits each of whose outcomes has the same mass in two vectors, wherever they stand. -/
theorem outcomeMasses_congr {v w : StateVector (Amplitude R)} {offset offset' width : Nat}
    (h : ∀ outcome, w.fieldMass offset' width outcome = v.fieldMass offset width outcome) :
    w.outcomeMasses offset' width = v.outcomeMasses offset width := by
  rw [← Array.toList_inj, toList_outcomeMasses, toList_outcomeMasses]
  exact List.map_congr_left fun k _ => h k

/-- The masses of all outcomes add up to the mass of the vector. -/
theorem sum_fieldMass (v : StateVector (Amplitude R)) (offset width : Nat) :
    ∑ k ∈ range (2 ^ width), v.fieldMass offset width k = v.mass := by
  rw [mass_eq_sum]
  unfold fieldMass
  rw [sum_comm]
  refine sum_congr rfl fun i _ => ?_
  rw [sum_ite_eq, if_pos (mem_range.mpr (field_lt offset width i))]

theorem foldl_outcomeMasses (v : StateVector (Amplitude R)) (offset width : Nat) :
    (v.outcomeMasses offset width).toList.foldl (· + ·) 0 = v.mass := by
  rw [toList_outcomeMasses, List.foldl_map, foldl_range_add, sum_fieldMass]

/-- A mass that is not faint among masses that add up to as much: some outcome is selected. -/
theorem exists_selectOutcome {masses : List R} {k : Nat} (hsolid : Solid masses k)
    (htotal : Scalar.zeroMass ≤ masses.foldl (· + ·) 0) (u : R) :
    ∃ outcome, selectOutcome masses u = .ok outcome := by
  unfold selectOutcome
  dsimp only
  rw [if_neg (not_lt.mpr htotal)]
  cases hlast : lastSolid? masses with
  | none => exact absurd hlast (lastSolid_ne_none hsolid)
  | some last => exact ⟨_, rfl⟩

/-- All the mass is that of the outcome which all entries carry. -/
theorem Carries.fieldMass_eq (h : v.Carries offset width outcome) :
    v.fieldMass offset width outcome = v.mass := by
  rw [mass_eq_sum]
  refine sum_congr rfl fun i _ => ?_
  by_cases hz : v.get i = 0
  · rw [hz, Amplitude.mass_zero, ite_self]
  · rw [if_pos (h i hz)]

/-- Keeping what all entries carry keeps all of them. -/
theorem Carries.collapse_one (h : v.Carries offset width outcome) :
    v.collapse offset width outcome 1 = v := by
  refine congrArg StateVector.mk (ext_entries (Machine.size_collapse ..) fun i hi => ?_)
  rw [size_tabulate] at hi
  refine (get_collapse hi 1).trans ?_
  by_cases hz : v.get i = 0
  · rw [hz, Amplitude.zero_divBy, ite_self]
    exact hz.symm
  · rw [if_pos (h i hz), Amplitude.divBy_one]
    rfl

theorem sqrt_one {R : Type} [RootScalar R] : Scalar.sqrt (1 : R) = 1 := by
  have hnonneg := RootScalar.sqrt_nonneg (1 : R) zero_le_one
  rcases mul_self_eq_one_iff.mp (RealScalar.sqrt_mul_self (1 : R) zero_le_one) with h | h
  · exact h
  · rw [h] at hnonneg
    exact absurd hnonneg (by norm_num)

/-- **A vector of mass one that carries an outcome is measured without a change**, whatever is
drawn. -/
theorem Carries.measure_eq {R : Type} [RootScalar R] {v : StateVector (Amplitude R)}
    {offset width outcome : Nat} (h : v.Carries offset width outcome) (hmass : v.mass = 1)
    (houtcome : outcome < 2 ^ width) (hrange : v.checkRange offset width = .ok ()) (u : R) :
    v.measure offset width u = .ok ⟨outcome, v⟩ := by
  have hone := RootScalar.zeroMass_le_one (R := R)
  have hfield := h.fieldMass_eq.trans hmass
  have hsolid : Solid (v.outcomeMasses offset width).toList outcome := by
    rw [toList_outcomeMasses]
    refine ⟨1, ?_, hone⟩
    rw [List.getElem?_map, List.getElem?_range houtcome, Option.map_some, hfield]
  have htotal : Scalar.zeroMass ≤ (v.outcomeMasses offset width).toList.foldl (· + ·) 0 := by
    rw [foldl_outcomeMasses, hmass]
    exact hone
  obtain ⟨found, hfound⟩ := exists_selectOutcome hsolid htotal u
  have hmeasure : v.measure offset width u =
      .ok ⟨found, v.collapse offset width found
        (Scalar.sqrt ((v.outcomeMasses offset width).getD found 0))⟩ := by
    unfold measure
    rw [hrange]
    exact seq_eq_ok.mpr ⟨rfl, bind_eq_ok.mpr ⟨found, hfound, rfl⟩⟩
  obtain rfl := h.outcome_eq hmeasure
  rw [hmeasure, getD_outcomeMasses v houtcome, hfield, sqrt_one, h.collapse_one]

end StateVector

end OpenQasm
