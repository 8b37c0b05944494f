import OpenQasm.Proofs.Support

/-!
# A state inside a larger one

A vector is embedded in another one at a list of positions when the other one holds its entries at
the indices whose remaining bits are all zero, bit `k` of an index standing at the `k`-th position.
The remaining bits belong to qubits that are `0` and that nothing has touched.

Whatever is done to a vector is done to the one that it is embedded in, with the bits that are
acted on located among the positions.

* `Embeds.initial`: no qubits, inside any number of qubits that are `0`.
* `Embeds.applyOnTargets`: the scatter kernel at located targets.
* `Embeds.fieldMass_eq`: the outcomes of located bits have the same masses.
* `Embeds.measure`, `Embeds.reset`: the outcome is the same, and what is left is embedded again.
* `Embeds.tensor`: fresh qubits claim positions that were left over.
-/

namespace OpenQasm

open BitIndex Kernel Finset

namespace BitIndex

theorem clear_zero (positions : List Nat) : clear positions 0 = 0 :=
  ext_bits fun b => by simp [testBit_clear]

/-- Patching some of the listed bits leaves those that are not listed. -/
theorem clear_patch_of_subset {outer inner : List Nat} (h : ∀ p ∈ inner, p ∈ outer) (i j : Nat) :
    clear outer (patch inner i j) = clear outer i := by
  refine ext_bits fun b => ?_
  rw [testBit_clear, testBit_patch, testBit_clear]
  constructor
  · rintro ⟨⟨hi, -⟩ | ⟨k, hk, -⟩, hb⟩
    · exact ⟨hi, hb⟩
    · exact absurd (h b (List.mem_of_getElem? hk)) hb
  · rintro ⟨hi, hb⟩
    exact ⟨Or.inl ⟨hi, fun hmem => hb (h b hmem)⟩, hb⟩

/-- Gathering after a patch at located positions is patching what was gathered. -/
theorem gather_patch_locate {outer inner : List Nat} (hd : outer.Nodup)
    (h : ∀ t ∈ inner, t < outer.length) (i j : Nat) :
    gather outer (patch (locate outer inner) i j) = patch inner (gather outer i) j := by
  rw [← patch_patch_gather hd h]
  exact gather_patch hd (patch_lt h (gather_lt outer i) j) i

/-- Consecutive bits of a selection that are consecutive in the whole index as well, from `offset'`
on. -/
structure Located (positions : List Nat) (offset width offset' : Nat) : Prop where
  within : offset + width ≤ positions.length
  locate_eq : locate positions (block offset width) = block offset' width

theorem Located.lt {positions : List Nat} {offset width offset' : Nat}
    (h : Located positions offset width offset') : ∀ t ∈ block offset width, t < positions.length :=
  fun _ ht => (mem_block.mp ht).2.trans_le h.within

/-- One of some located bits. -/
theorem Located.bit {positions : List Nat} {offset width offset' i : Nat}
    (h : Located positions offset width offset') (hi : i < width) :
    Located positions (offset + i) 1 (offset' + i) where
  within := by
    have := h.within
    omega
  locate_eq := by
    have hbit := congrArg (·[i]?) h.locate_eq
    simp only [getElem?_locate] at hbit
    rw [getElem?_block.mpr ⟨hi, rfl⟩, getElem?_block.mpr ⟨hi, rfl⟩, Option.map_some] at hbit
    show [positions.getD (offset + i) 0] = [offset' + i]
    rw [Option.some.inj hbit]

/-- The field at located bits. -/
theorem field_gather {positions : List Nat} {offset width offset' : Nat}
    (h : Located positions offset width offset') (i : Nat) :
    field offset width (gather positions i) = field offset' width i := by
  rw [field_eq_gather, field_eq_gather, gather_gather h.lt, h.locate_eq]

/-- Bits that are not listed in either half. -/
theorem clear_append_eq_zero {ps qs : List Nat} (hdisjoint : ∀ p ∈ qs, p ∉ ps) {i : Nat} :
    clear ps i = 0 ↔ clear (ps ++ qs) i = 0 ∧ gather qs i = 0 := by
  have hzero : ∀ {j : Nat}, j = 0 ↔ ∀ b, j.testBit b ≠ true := by
    intro j
    refine ⟨fun h b => by simp [h], fun h => ext_bits fun b => ?_⟩
    simp [h b]
  rw [hzero, hzero, hzero]
  simp only [Ne, testBit_clear, testBit_gather, List.mem_append, not_and, not_not, not_exists]
  constructor
  · intro h
    refine ⟨fun b hb => Or.inl (h b hb), fun k p hk hp => ?_⟩
    exact hdisjoint p (List.mem_of_getElem? hk) (h p hp)
  · rintro ⟨hall, hrest⟩ b hb
    refine (hall b hb).resolve_right fun hmem => ?_
    obtain ⟨k, hk⟩ := List.mem_iff_getElem?.mp hmem
    exact hrest k b hk hb

end BitIndex

namespace StateVector

variable {R : Type}

/-- The entries of `v` stand in `w` at the indices whose bits outside `positions` are zero, and all
other entries of `w` are zero. The vector `w` has `n` qubits. -/
structure Embeds {A : Type} [Zero A] (positions : List Nat) (n : Nat) (v w : StateVector A) :
    Prop where
  nodup : positions.Nodup
  lt : ∀ p ∈ positions, p < n
  size_left : v.size = 2 ^ positions.length
  size_right : w.size = 2 ^ n
  get : ∀ i < 2 ^ n, w.get i = if clear positions i = 0 then v.get (gather positions i) else 0

section Exact

variable [ExactScalar R] {positions : List Nat} {n : Nat} {v w : StateVector (Amplitude R)}

/-- **An operator at located bits** does to the larger vector what it does to the smaller one. -/
theorem Embeds.applyOnTargets (h : Embeds positions n v w) {targets : List Nat}
    (ht : ∀ t ∈ targets, t < positions.length) (matrix : Array (Amplitude R)) :
    Embeds positions n ⟨applyOnTargets v.entries matrix targets⟩
      ⟨applyOnTargets w.entries matrix (locate positions targets)⟩ := by
  refine ⟨h.nodup, h.lt, ?_, ?_, fun i hi => ?_⟩
  · exact (size_applyOnTargets ..).trans h.size_left
  · exact (size_applyOnTargets ..).trans h.size_right
  have hlocated : ∀ p ∈ locate positions targets, p ∈ positions := fun p hp => locate_mem ht hp
  have hread : ∀ j, entry w.entries (patch (locate positions targets) i j) =
      if clear positions i = 0 then v.get (patch targets (gather positions i) j) else 0 := by
    intro j
    have hlt := patch_lt (fun p hp => h.lt p (hlocated p hp)) hi j
    refine (h.get _ hlt).trans ?_
    rw [clear_patch_of_subset hlocated, gather_patch_locate h.nodup ht]
  rw [StateVector.get, entry_applyOnTargets _ _ _ (hi.trans_eq h.size_right.symm), length_locate,
    ← gather_gather ht]
  simp only [hread]
  by_cases hclear : clear positions i = 0
  · have hlt : gather positions i < v.size := (gather_lt positions i).trans_eq h.size_left.symm
    simp only [if_pos hclear]
    exact (entry_applyOnTargets _ _ _ hlt).symm
  · simp only [if_neg hclear, mul_zero, sum_const_zero]

/-- **The outcomes of located bits** have the same masses. -/
theorem Embeds.fieldMass_eq (h : Embeds positions n v w) {offset width offset' : Nat}
    (hl : Located positions offset width offset') (outcome : Nat) :
    w.fieldMass offset' width outcome = v.fieldMass offset width outcome := by
  have hread : ∀ i ∈ range (2 ^ n),
      (if field offset' width i = outcome then (w.get i).mass else 0) =
        if clear positions 0 = clear positions i then
          if field offset width (gather positions i) = outcome
          then (v.get (gather positions i)).mass else 0
        else 0 := by
    intro i hi
    rw [field_gather hl, clear_zero, h.get i (mem_range.mp hi)]
    by_cases hclear : clear positions i = 0
    · rw [if_pos hclear, if_pos hclear.symm]
    · rw [if_neg hclear, if_neg (Ne.symm hclear), Amplitude.mass_zero, ite_self]
  rw [fieldMass, fieldMass, h.size_right, h.size_left, sum_congr rfl hread]
  exact sum_patch h.nodup h.lt (Nat.two_pow_pos n) fun g _ =>
    if field offset width g = outcome then (v.get g).mass else 0

/-- **Fresh qubits** claim some of the positions that were left over. -/
theorem Embeds.tensor (h : Embeds positions n v w) {added : List Nat} (hadded : added.Nodup)
    (hdisjoint : ∀ p ∈ added, p ∉ positions) (hlt : ∀ p ∈ added, p < n)
    {fresh : StateVector (Amplitude R)} (hfresh : zeroState added.length = .ok fresh) :
    Embeds (positions ++ added) n (fresh.tensor v) w := by
  have hsize := size_of_zeroState hfresh
  have htensor : (fresh.tensor v).size = 2 ^ (positions ++ added).length := by
    rw [List.length_append, Nat.add_comm, Nat.pow_add, ← hsize, ← h.size_left]
    exact size_tabulate _ _
  refine ⟨?_, ?_, htensor, h.size_right, fun i hi => ?_⟩
  · exact List.nodup_append'.mpr ⟨h.nodup, hadded, fun p hp ha => hdisjoint p ha hp⟩
  · intro p hp
    rcases List.mem_append.mp hp with hp | hp
    · exact h.lt p hp
    · exact hlt p hp
  have hgather : gather (positions ++ added) i < (fresh.tensor v).size :=
    (gather_lt _ i).trans_eq htensor.symm
  rw [h.get i hi, get_tensor_zeroState hfresh hgather, h.size_left, gather_append_div,
    gather_append_mod, ← ite_and]
  exact if_congr (clear_append_eq_zero hdisjoint) rfl rfl

/-- No qubits at all, inside qubits that are all `0`. -/
theorem Embeds.initial (hsize : w.size = 2 ^ n)
    (hget : ∀ i < 2 ^ n, w.get i = if i = 0 then 1 else 0) : Embeds [] n ⟨#[1]⟩ w := by
  refine ⟨List.nodup_nil, by simp, rfl, hsize, fun i hi => ?_⟩
  have hclear : clear [] i = i := ext_bits fun b => by simp [testBit_clear]
  rw [hget i hi, hclear]
  rfl

end Exact

/-! ## Measurements -/

variable [RealScalar R] {positions : List Nat} {n : Nat} {v w : StateVector (Amplitude R)}
  {offset width offset' : Nat}

theorem Embeds.outcomeMasses_eq (h : Embeds positions n v w)
    (hl : Located positions offset width offset') :
    w.outcomeMasses offset' width = v.outcomeMasses offset width :=
  outcomeMasses_congr (h.fieldMass_eq hl)

theorem Embeds.collapse (h : Embeds positions n v w)
    (hl : Located positions offset width offset') (outcome : Nat) (norm : R) :
    Embeds positions n (v.collapse offset width outcome norm)
      (w.collapse offset' width outcome norm) := by
  refine ⟨h.nodup, h.lt, ?_, ?_, fun i hi => ?_⟩
  · exact (Machine.size_collapse ..).trans h.size_left
  · exact (Machine.size_collapse ..).trans h.size_right
  have hgather : gather positions i < v.size := (gather_lt positions i).trans_eq h.size_left.symm
  rw [get_collapse (hi.trans_eq h.size_right.symm), get_collapse hgather, field_gather hl,
    h.get i hi]
  by_cases hclear : clear positions i = 0
  · rw [if_pos hclear, if_pos hclear]
  · rw [if_neg hclear, if_neg hclear, Amplitude.zero_divBy, ite_self]

/-- **A measurement of located bits** finds the same outcome with the same draw. -/
theorem Embeds.measure (h : Embeds positions n v w)
    (hl : Located positions offset width offset')
    (hrange : w.checkRange offset' width = .ok ()) {u : R} {outcome : Nat}
    {v' : StateVector (Amplitude R)} (hv : v.measure offset width u = .ok ⟨outcome, v'⟩) :
    ∃ w', w.measure offset' width u = .ok ⟨outcome, w'⟩ ∧ Embeds positions n v' w' := by
  obtain ⟨-, -, hv⟩ := bind_eq_ok.mp hv
  obtain ⟨found, hfound, hv⟩ := bind_eq_ok.mp hv
  obtain ⟨rfl, rfl⟩ := Measured.mk.inj (Except.ok.inj hv)
  refine ⟨_, ?_, h.collapse hl found _⟩
  unfold StateVector.measure
  rw [hrange, h.outcomeMasses_eq hl]
  exact seq_eq_ok.mpr ⟨rfl, bind_eq_ok.mpr ⟨found, hfound, rfl⟩⟩

/-- **A projection of located bits** succeeds as well. -/
theorem Embeds.reset (h : Embeds positions n v w)
    (hl : Located positions offset width offset')
    (hrange : w.checkRange offset' width = .ok ()) {v' : StateVector (Amplitude R)}
    (hv : v.reset offset width = .ok v') :
    ∃ w', w.reset offset' width = .ok w' ∧ Embeds positions n v' w' := by
  have hkept : w.clearMass offset' width = v.clearMass offset width := by
    rw [clearMass_eq, clearMass_eq, h.fieldMass_eq hl]
  obtain ⟨-, -, hv⟩ := bind_eq_ok.mp hv
  obtain ⟨hsolid, hv⟩ := ite_throw_eq_ok.mp hv
  obtain rfl := Except.ok.inj hv
  refine ⟨_, ?_, h.collapse hl 0 _⟩
  unfold StateVector.reset
  rw [hrange, hkept]
  exact seq_eq_ok.mpr ⟨rfl, ite_throw_eq_ok.mpr ⟨hsolid, rfl⟩⟩

end StateVector

end OpenQasm
