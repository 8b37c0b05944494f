import OpenQasm.Proofs.Composition

/-!
# Operators on disjoint positions

An index is read at two lists of positions that share none. What is patched at one list is not
gathered at the other (`gather_patch_of_disjoint`), so the row that an operator takes is the same
before and after the other operator, and the order of the two patches does not matter
(`patch_comm`). The lists may be interleaved in any way and need not be sorted.

* `entry_applyOnTargets_twice`: both operators, one after the other, as one double sum.
* `disjoint_applications`: that sum may be taken in either order, and it is the single sum of the
  Kronecker product on the positions of both lists.
-/

namespace OpenQasm

open BitIndex Kernel Finset

namespace BitIndex

variable {ps qs : List Nat} {i j m : Nat}

/-- What is patched at other positions is not gathered. -/
theorem gather_patch_of_disjoint (h : ∀ p ∈ ps, p ∉ qs) (i j : Nat) :
    gather ps (patch qs i j) = gather ps i := by
  refine ext_bits fun k => ?_
  rw [testBit_gather, testBit_gather]
  refine exists_congr fun p => and_congr_right fun hk => ?_
  have hp := h p (List.mem_of_getElem? hk)
  rw [testBit_patch]
  constructor
  · rintro (⟨hi, -⟩ | ⟨l, hl, -⟩)
    · exact hi
    · exact absurd (List.mem_of_getElem? hl) hp
  · exact fun hi => Or.inl ⟨hi, hp⟩

/-- Patches at disjoint positions, in either order. -/
theorem patch_comm (h : ∀ p ∈ ps, p ∉ qs) (i j m : Nat) :
    patch ps (patch qs i j) m = patch qs (patch ps i m) j := by
  refine ext_bits fun b => ?_
  have hps : ∀ k, ps[k]? = some b → b ∉ qs := fun _ hk => h b (List.mem_of_getElem? hk)
  have hqs : ∀ k, qs[k]? = some b → b ∉ ps := fun _ hk hb => h b hb (List.mem_of_getElem? hk)
  simp only [testBit_patch]
  constructor
  · rintro (⟨⟨hi, hq⟩ | ⟨k, hk, hj⟩, hp⟩ | ⟨k, hk, hm⟩)
    · exact Or.inl ⟨Or.inl ⟨hi, hp⟩, hq⟩
    · exact Or.inr ⟨k, hk, hj⟩
    · exact Or.inl ⟨Or.inr ⟨k, hk, hm⟩, hps k hk⟩
  · rintro (⟨⟨hi, hp⟩ | ⟨k, hk, hm⟩, hq⟩ | ⟨k, hk, hj⟩)
    · exact Or.inl ⟨Or.inl ⟨hi, hq⟩, hp⟩
    · exact Or.inr ⟨k, hk, hm⟩
    · exact Or.inl ⟨Or.inr ⟨k, hk, hj⟩, hqs k hk⟩

/-- The bits of two lists side by side are patched one list after the other. -/
theorem patch_append (h : ∀ p ∈ ps, p ∉ qs) (hm : m < 2 ^ ps.length) (i j : Nat) :
    patch (ps ++ qs) i (m + 2 ^ ps.length * j) = patch ps (patch qs i j) m := by
  have hbit : ∀ k, (m + 2 ^ ps.length * j).testBit k =
      if k < ps.length then m.testBit k else j.testBit (k - ps.length) := fun k => by
    rw [Nat.add_comm, Nat.testBit_two_pow_mul_add _ hm]
  refine ext_bits fun b => ?_
  simp only [testBit_patch, hbit, List.mem_append, not_or]
  constructor
  · rintro (⟨hi, hp, hq⟩ | ⟨k, hk, hx⟩)
    · exact Or.inl ⟨Or.inl ⟨hi, hq⟩, hp⟩
    · rcases Nat.lt_or_ge k ps.length with hlt | hge
      · rw [if_pos hlt] at hx
        exact Or.inr ⟨k, (List.getElem?_append_left hlt).symm.trans hk, hx⟩
      · rw [if_neg (Nat.not_lt.mpr hge)] at hx
        have hk := (List.getElem?_append_right hge).symm.trans hk
        exact Or.inl ⟨Or.inr ⟨_, hk, hx⟩, fun hb => h b hb (List.mem_of_getElem? hk)⟩
  · rintro (⟨⟨hi, hq⟩ | ⟨k, hk, hj⟩, hp⟩ | ⟨k, hk, hmk⟩)
    · exact Or.inl ⟨hi, hp, hq⟩
    · refine Or.inr ⟨ps.length + k, ?_, ?_⟩
      · rw [List.getElem?_append_right (Nat.le_add_right ..), Nat.add_sub_cancel_left, hk]
      · rwa [if_neg (Nat.not_lt.mpr (Nat.le_add_right ..)), Nat.add_sub_cancel_left]
    · have hlt := lt_length_of_getElem? hk
      refine Or.inr ⟨k, (List.getElem?_append_left hlt).trans hk, ?_⟩
      rwa [if_pos hlt]

end BitIndex

namespace Kernel

variable {A : Type}

variable [CommRing A] {vector : Array A} {U V : SquareMatrix A} {S T : List Nat} {n : Nat}

/-- Two operators on disjoint positions, as one double sum: neither changes the row of the other. -/
theorem entry_applyOnTargets_twice (hU : U.dim = 2 ^ S.length) (hV : V.dim = 2 ^ T.length)
    (hdisjoint : ∀ p ∈ S, p ∉ T) (hT : ∀ p ∈ T, p < n) (hv : vector.size = 2 ^ n) {i : Nat}
    (hi : i < 2 ^ n) :
    entry (applyOnTargets (applyOnTargets vector U.entries S) V.entries T) i =
      ∑ m ∈ range (2 ^ T.length), ∑ j ∈ range (2 ^ S.length),
        V.get (gather T i) m * U.get (gather S i) j * entry vector (patch S (patch T i m) j) := by
  rw [entry_applyOnTargets_get hV (by rwa [size_applyOnTargets, hv])]
  refine sum_congr rfl fun m _ => ?_
  have hpatched : patch T i m < vector.size := (patch_lt hT hi m).trans_eq hv.symm
  rw [entry_applyOnTargets_get hU hpatched, gather_patch_of_disjoint hdisjoint, mul_sum]
  exact sum_congr rfl fun j _ => (mul_assoc _ _ _).symm

/-- **Operators on disjoint positions commute.** -/
theorem applyOnTargets_comm (hU : U.dim = 2 ^ S.length) (hV : V.dim = 2 ^ T.length)
    (hdisjoint : ∀ p ∈ S, p ∉ T) (hS : ∀ p ∈ S, p < n) (hT : ∀ p ∈ T, p < n)
    (hv : vector.size = 2 ^ n) :
    applyOnTargets (applyOnTargets vector U.entries S) V.entries T =
      applyOnTargets (applyOnTargets vector V.entries T) U.entries S := by
  have hsymm : ∀ p ∈ T, p ∉ S := fun p ht hs => hdisjoint p hs ht
  refine ext_entries (by simp only [size_applyOnTargets]) fun i hi => ?_
  rw [size_applyOnTargets, size_applyOnTargets, hv] at hi
  rw [entry_applyOnTargets_twice hU hV hdisjoint hT hv hi,
    entry_applyOnTargets_twice hV hU hsymm hS hv hi, Finset.sum_comm]
  refine sum_congr rfl fun j _ => sum_congr rfl fun m _ => ?_
  rw [patch_comm hdisjoint, mul_comm (V.get _ _)]

/-- **Operators on disjoint positions are their Kronecker product**, the one that is applied first
on the lower bits. -/
theorem applyOnTargets_tensor [BEq A] [LawfulBEq A] (hU : U.dim = 2 ^ S.length)
    (hV : V.dim = 2 ^ T.length) (hdisjoint : ∀ p ∈ S, p ∉ T) (hT : ∀ p ∈ T, p < n)
    (hv : vector.size = 2 ^ n) :
    applyOnTargets vector (V.tensor U).entries (S ++ T) =
      applyOnTargets (applyOnTargets vector U.entries S) V.entries T := by
  have hpow : 2 ^ (S ++ T).length = 2 ^ T.length * 2 ^ S.length := by
    rw [List.length_append, Nat.add_comm, Nat.pow_add]
  have hdim : (V.tensor U).dim = 2 ^ (S ++ T).length := by
    rw [hpow, ← hU, ← hV]
    rfl
  have hget : ∀ i t, t < 2 ^ (S ++ T).length → (V.tensor U).get (gather (S ++ T) i) t =
      V.get (gather T i) (t / 2 ^ S.length) * U.get (gather S i) (t % 2 ^ S.length) := by
    intro i t ht
    rw [SquareMatrix.get_tensor V U (by rw [hU, hV, ← hpow]; exact gather_lt _ i)
      (by rwa [hU, hV, ← hpow]), hU, gather_append_div, gather_append_mod]
  refine ext_entries (by simp only [size_applyOnTargets]) fun i hi => ?_
  rw [size_applyOnTargets] at hi
  rw [entry_applyOnTargets_get hdim hi,
    entry_applyOnTargets_twice hU hV hdisjoint hT hv (hi.trans_eq hv)]
  calc ∑ t ∈ range (2 ^ (S ++ T).length),
        (V.tensor U).get (gather (S ++ T) i) t * entry vector (patch (S ++ T) i t)
      = ∑ t ∈ range (2 ^ T.length * 2 ^ S.length),
          V.get (gather T i) (t / 2 ^ S.length) * U.get (gather S i) (t % 2 ^ S.length) *
            entry vector (patch (S ++ T) i t) := by
        rw [← hpow]
        exact sum_congr rfl fun t ht => by rw [hget i t (mem_range.mp ht)]
    _ = _ := sum_range_grid _ _ _
    _ = _ := by
        refine sum_congr rfl fun m _ => sum_congr rfl fun j hj => ?_
        have hj := mem_range.mp hj
        rw [cell_div hj, cell_mod hj, ← patch_append hdisjoint hj, Nat.add_comm,
          Nat.mul_comm m]

/-- **Gates on disjoint qubits commute**: both orders add up the same double sum, and so does the
Kronecker product on the positions of both, those of the gate that acts first on the lower bits. -/
theorem disjoint_applications [BEq A] [LawfulBEq A] (hU : U.dim = 2 ^ S.length)
    (hV : V.dim = 2 ^ T.length) (hS : ∀ p ∈ S, p < n) (hT : ∀ p ∈ T, p < n)
    (hdisjoint : ∀ p ∈ S, p ∉ T) (hv : vector.size = 2 ^ n) :
    applyOnTargets (applyOnTargets vector U.entries S) V.entries T =
        applyOnTargets (applyOnTargets vector V.entries T) U.entries S ∧
      applyOnTargets (applyOnTargets vector U.entries S) V.entries T =
        applyOnTargets vector (V.tensor U).entries (S ++ T) ∧
      ∀ i < 2 ^ n, entry (applyOnTargets (applyOnTargets vector U.entries S) V.entries T) i =
        ∑ m ∈ range (2 ^ T.length), ∑ j ∈ range (2 ^ S.length),
          V.get (gather T i) m * U.get (gather S i) j *
            entry vector (patch S (patch T i m) j) :=
  ⟨applyOnTargets_comm hU hV hdisjoint hS hT hv,
    (applyOnTargets_tensor hU hV hdisjoint hT hv).symm,
    fun _ hi => entry_applyOnTargets_twice hU hV hdisjoint hT hv hi⟩

/-- Two of three bits, in descending order, and the one between them. -/
theorem disjoint_applications_interleaved :
    let vector : Array Int := #[1, 2, 3, 4, 5, 6, 7, 8]
    let U : SquareMatrix Int := .ofFn 4 fun i j => i + 2 * j
    let V : SquareMatrix Int := .ofFn 2 fun i j => i - 3 * j
    let both : Array Int := #[-234, -366, -102, -162, -300, -432, -132, -192]
    applyOnTargets (applyOnTargets vector U.entries [2, 0]) V.entries [1] = both ∧
      applyOnTargets (applyOnTargets vector V.entries [1]) U.entries [2, 0] = both ∧
      applyOnTargets vector (V.tensor U).entries [2, 0, 1] = both := by
  intro vector U V both
  have hboth : applyOnTargets (applyOnTargets vector U.entries [2, 0]) V.entries [1] = both := by
    decide +kernel
  have hsize : vector.size = 2 ^ 3 := rfl
  obtain ⟨hcomm, htensor, -⟩ := disjoint_applications (U := U) (V := V) (S := [2, 0]) (T := [1])
    rfl rfl (by decide) (by decide) (by decide) hsize
  exact ⟨hboth, hcomm.symm.trans hboth, htensor.symm.trans hboth⟩

end Kernel

end OpenQasm
