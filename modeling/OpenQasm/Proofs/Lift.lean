import OpenQasm.Proofs.Kernel
import OpenQasm.Proofs.Placement

/-!
# Lifting an operator to more qubits

An operator on `targets` is lifted to `n` qubits by `placement` and `redimension`: padding with the
identity, then a permutation of the bits of rows and columns. `lifted` says what comes out entry by
entry: the operator's entry at the gathered indices where the bits outside `targets` agree, and
zero elsewhere.

* `redimension_placement`: the lift along the placement of distinct targets is `lifted`.
* `matApply_lifted`: the dense product with the lift is `applyOnTargets`.
* **`apply_redimension_placement`**: the kernel that never builds the lift agrees with it.
-/

namespace OpenQasm

open BitIndex Kernel Finset

variable {A : Type}

namespace SquareMatrix

/-! ## Entries -/

theorem get_ofFn [Zero A] {dim : Nat} (f : Nat → Nat → A) {i j : Nat} (hi : i < dim)
    (hj : j < dim) : (ofFn dim f).get i j = f i j := by
  unfold get ofFn
  rw [entry_tabulate _ (cell_lt hi hj), cell_div hj, cell_mod hj]

theorem ofFn_congr {dim : Nat} {f g : Nat → Nat → A}
    (h : ∀ i j, i < dim → j < dim → f i j = g i j) : ofFn dim f = ofFn dim g := by
  have hcell : (fun t : Fin (dim * dim) => f (t / dim) (t % dim)) =
      fun t : Fin (dim * dim) => g (t / dim) (t % dim) := by
    funext t
    have hpos : 0 < dim := Nat.pos_of_mul_pos_left (Nat.zero_lt_of_lt t.isLt)
    exact h _ _ (Nat.div_lt_of_lt_mul t.isLt) (Nat.mod_lt _ hpos)
  unfold ofFn tabulate
  simp only [hcell]

variable [CommRing A]

theorem get_identity {dim i j : Nat} (hi : i < dim) (hj : j < dim) :
    (identity dim : SquareMatrix A).get i j = if i = j then 1 else 0 :=
  get_ofFn _ hi hj

/-- Skipping the zero entries of the left factor changes nothing. -/
theorem get_tensor [BEq A] [LawfulBEq A] (a b : SquareMatrix A) {i j : Nat}
    (hi : i < a.dim * b.dim) (hj : j < a.dim * b.dim) :
    (a.tensor b).get i j =
      a.get (i / b.dim) (j / b.dim) * b.get (i % b.dim) (j % b.dim) := by
  unfold tensor
  rw [get_ofFn _ hi hj]
  simp only
  split
  · rename_i hz
    rw [beq_iff_eq.mp hz, zero_mul]
  · rfl

/-- The product of two matrices of one dimension, entry by entry. -/
theorem get_of_mul_ok [BEq A] [LawfulBEq A] {a b product : SquareMatrix A}
    (h : a.mul b = .ok product) :
    b.dim = a.dim ∧ product.dim = a.dim ∧ ∀ i j, i < a.dim → j < a.dim →
      product.get i j = ∑ k ∈ range a.dim, a.get i k * b.get k j := by
  unfold mul at h
  split at h
  · rename_i hdim
    obtain rfl := Except.ok.inj h
    refine ⟨hdim, rfl, fun i j hi hj => ?_⟩
    unfold get
    rw [entry_matMul _ _ hi hj, hdim]
  · cases h

theorem apply_eq_ok (m : SquareMatrix A) {v : StateVector A} (h : v.size = m.dim) :
    m.apply v = .ok ⟨matApply m.entries m.dim v.entries⟩ := by
  unfold apply
  rw [if_pos h]

end SquareMatrix

/-! ## The lift -/

variable {n : Nat} {operator : SquareMatrix A} {targets : List Nat}

/-- Two indices below `2 ^ n` agree on the other bits when they agree off the targets. -/
theorem gather_others_eq_iff {r c : Nat} (hr : r < 2 ^ n) (hc : c < 2 ^ n) :
    gather (others n targets) r = gather (others n targets) c ↔
      clear targets r = clear targets c := by
  -- a set bit off the targets of one index is read by `gather`, hence set in the other
  have carry : ∀ {x y : Nat}, x < 2 ^ n →
      gather (others n targets) x = gather (others n targets) y →
      ∀ b, (clear targets x).testBit b = true → (clear targets y).testBit b = true := by
    intro x y hx h b hb
    obtain ⟨hxb, hbt⟩ := (testBit_clear ..).mp hb
    obtain ⟨k, hk⟩ := List.mem_iff_getElem?.mp (mem_others.mpr ⟨lt_of_testBit hx hxb, hbt⟩)
    have hg := (testBit_gather (others n targets) x k).mpr ⟨b, hk, hxb⟩
    rw [h] at hg
    obtain ⟨p, hp, hyp⟩ := (testBit_gather ..).mp hg
    obtain rfl := Option.some.inj (hk.symm.trans hp)
    exact (testBit_clear ..).mpr ⟨hyp, hbt⟩
  constructor
  · intro h
    exact ext_bits fun b => ⟨carry hr h b, carry hc h.symm b⟩
  · intro h
    have read : ∀ x k, (gather (others n targets) x).testBit k = true ↔
        ∃ p, (others n targets)[k]? = some p ∧ (clear targets x).testBit p = true := by
      intro x k
      rw [testBit_gather]
      refine exists_congr fun p => and_congr_right fun hp => ?_
      rw [testBit_clear]
      exact (and_iff_left (mem_others.mp (List.mem_of_getElem? hp)).2).symm
    exact ext_bits fun k => by rw [read, read, h]

/-- The operator on `targets` lifted to `n` qubits, entry by entry. -/
def lifted [Zero A] (n : Nat) (operator : SquareMatrix A) (targets : List Nat) : SquareMatrix A :=
  .ofFn (2 ^ n) fun r c =>
    if clear targets r = clear targets c
    then operator.get (gather targets r) (gather targets c) else 0

section Lift

variable [CommRing A] [BEq A] [LawfulBEq A]

omit [BEq A] [LawfulBEq A] in
theorem get_lifted {r c : Nat} (hr : r < 2 ^ n) (hc : c < 2 ^ n) :
    (lifted n operator targets).get r c =
      if clear targets r = clear targets c
      then operator.get (gather targets r) (gather targets c) else 0 :=
  SquareMatrix.get_ofFn _ hr hc

/-- The operator padded with the identity on the bits behind its own, read at the bits of two
indices in the order of the placement. -/
theorem get_padded (h : Placed n operator targets) {r c : Nat} (hr : r < 2 ^ n)
    (hc : c < 2 ^ n) :
    ((SquareMatrix.identity (2 ^ n / operator.dim)).tensor operator).get
        (gather (targets ++ others n targets) r) (gather (targets ++ others n targets) c) =
      if clear targets r = clear targets c
      then operator.get (gather targets r) (gather targets c) else 0 := by
  have hlen := length_add_length_others h.nodup h.lt
  have hpow : 2 ^ n / operator.dim = 2 ^ (others n targets).length := by
    rw [h.dim_eq, Nat.pow_div (by omega) (by decide)]
    congr 1
    omega
  have hside : ∀ i, gather (targets ++ others n targets) i <
      (SquareMatrix.identity (A := A) (2 ^ n / operator.dim)).dim * operator.dim := by
    intro i
    have hlt := gather_lt (targets ++ others n targets) i
    rw [List.length_append, Nat.add_comm, Nat.pow_add, ← hpow, ← h.dim_eq] at hlt
    exact hlt
  rw [SquareMatrix.get_tensor _ _ (hside r) (hside c), hpow, h.dim_eq, gather_append_div,
    gather_append_div, gather_append_mod, gather_append_mod,
    SquareMatrix.get_identity (gather_lt _ r) (gather_lt _ c), ite_mul, one_mul, zero_mul]
  simp only [gather_others_eq_iff hr hc]

omit [CommRing A] in
theorem ite_beq_zero [Zero A] (x : A) : (if (x == 0) = true then 0 else x) = x := by
  split
  · rename_i hz
    exact (beq_iff_eq.mp hz).symm
  · rfl

/-- Padding an operator and permuting the bits lifts it. -/
theorem redimension_placement (h : Placed n operator targets) :
    operator.redimension (targets ++ others n targets) = .ok (lifted n operator targets) := by
  have hperm := append_others_perm h.nodup h.lt
  have hlen : (targets ++ others n targets).length = n := by
    rw [hperm.length_eq, List.length_range]
  have hsmall : ¬(operator.qubits?.isNone = true ∨ 2 ^ n < operator.dim) := by
    have hq : operator.qubits? = some targets.length := exactLog2?_eq_some_iff.mpr h.dim_eq
    have hk : targets.length ≤ n := by
      have := length_add_length_others h.nodup h.lt
      omega
    rw [hq, h.dim_eq, not_or]
    exact ⟨Bool.false_ne_true, Nat.not_lt.mpr (Nat.pow_le_pow_right (by decide) hk)⟩
  unfold SquareMatrix.redimension
  simp only [hlen, Nat.pow_eq]
  rw [if_neg hsmall, if_pos (isPermutation_of_perm hperm)]
  refine congrArg Except.ok (SquareMatrix.ofFn_congr fun r c hr hc => ?_)
  have horigin : ∀ i, i < 2 ^ n →
      (tabulate (2 ^ n) (gather (targets ++ others n targets))).getD i 0 =
        gather (targets ++ others n targets) i := fun i hi => entry_tabulate _ hi
  rw [ite_beq_zero, horigin r hr, horigin c hc, get_padded h hr hc]

omit [BEq A] [LawfulBEq A] in
/-- The dense product with a lift is the kernel that never builds it. -/
theorem matApply_lifted (h : Placed n operator targets) {vector : Array A}
    (hv : vector.size = 2 ^ n) :
    matApply (lifted n operator targets).entries (2 ^ n) vector =
      applyOnTargets vector operator.entries targets := by
  refine ext_entries ?_ fun i hi => ?_
  · rw [size_applyOnTargets, hv]
    exact size_tabulate _ _
  have hi : i < 2 ^ n := by
    unfold matApply at hi
    rwa [size_tabulate] at hi
  rw [entry_matApply _ _ hi, entry_applyOnTargets _ _ _ (hv ▸ hi)]
  calc ∑ c ∈ range (2 ^ n), (lifted n operator targets).get i c * entry vector c
      = ∑ c ∈ range (2 ^ n), if clear targets i = clear targets c
          then operator.get (gather targets i) (gather targets c) * entry vector c else 0 := by
        refine sum_congr rfl fun c hc => ?_
        rw [get_lifted hi (mem_range.mp hc), ite_mul, zero_mul]
    _ = _ := by
        rw [sum_patch h.nodup h.lt hi
          fun j c => operator.get (gather targets i) j * entry vector c]
        simp only [SquareMatrix.get, h.dim_eq]

end Lift

/-- **The kernel agrees with the dense lift**: for distinct targets in any order the lift along
their placement exists, and its product with a vector is what `applyOnTargets` computes. -/
theorem apply_redimension_placement [CommRing A] [BEq A] [LawfulBEq A] {n : Nat}
    {operator : SquareMatrix A} {v : StateVector A} {targets : List Nat}
    (hdim : operator.dim = 2 ^ targets.length) (hsize : v.size = 2 ^ n)
    (hdistinct : targets.Nodup) (hlt : ∀ t ∈ targets, t < n) :
    placement n targets operator =
        .ok (targets ++ (List.range n).filter fun q => !targets.contains q) ∧
      ∃ lift, operator.redimension
          (targets ++ (List.range n).filter fun q => !targets.contains q) = .ok lift ∧
        lift.apply v = .ok ⟨applyOnTargets v.entries operator.entries targets⟩ := by
  have h : Placed n operator targets := ⟨hdim, hdistinct, hlt⟩
  refine ⟨placement_eq_ok h, lifted n operator targets, redimension_placement h, ?_⟩
  rw [SquareMatrix.apply_eq_ok _ hsize, show (lifted n operator targets).dim = 2 ^ n from rfl,
    matApply_lifted h hsize]

/-- Two of three bits, the high one first: the placement puts the middle bit last, and the product
with the lift mixes entries whose middle bits agree. -/
theorem apply_redimension_placement_two_of_three :
    let operator : SquareMatrix Int :=
      ⟨4, #[1, 2, 3, 4, 5, 6, 7, 8, 9, 10, 11, 12, 13, 14, 15, 16], rfl⟩
    placement 3 [2, 0] operator = .ok [2, 0, 1] ∧
      ∃ lift, operator.redimension [2, 0, 1] = .ok lift ∧
        lift.apply ⟨#[1, 2, 3, 4, 5, 6, 7, 8]⟩ =
          .ok ⟨#[41, 153, 61, 237, 97, 209, 149, 325]⟩ := by
  intro operator
  have hdim : operator.dim = 2 ^ [2, 0].length := rfl
  have hsize : (⟨#[1, 2, 3, 4, 5, 6, 7, 8]⟩ : StateVector Int).size = 2 ^ 3 := rfl
  obtain ⟨hplacement, lift, hlift, happly⟩ :=
    apply_redimension_placement hdim hsize (by decide) (by decide)
  exact ⟨hplacement, lift, hlift, happly.trans (by decide +kernel)⟩

end OpenQasm
