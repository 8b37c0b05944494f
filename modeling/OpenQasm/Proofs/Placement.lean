import Mathlib.Algebra.Group.Nat.Defs
import Mathlib.Data.List.Nodup
import Mathlib.Data.List.Perm.Subperm
import OpenQasm.Proofs.Fallible
import OpenQasm.Quantum.Building

/-!
# Placing the steps of a circuit

Which steps of a circuit can be placed, whatever the entries of their operators are.

* `Placed`: an operator of the right size stands on qubits that differ and exist.
* `of_advance_ok`, `exists_advance`: a step is added to a circuit exactly when its operator is
  placed.
* `AlgebraError.Exceeds`: the error of a circuit that is too wide for an address space, the only one
  that is not about a step. `resolve_composite` says what is left to do for one that is not.
-/

namespace OpenQasm

open BitIndex

variable {A : Type}

/-! ## Powers of two -/

theorem exactLog2?_eq_some_iff {n k : Nat} : exactLog2? n = some k ↔ n = 2 ^ k := by
  unfold exactLog2?
  rw [Nat.pow_eq]
  constructor
  · intro h
    split at h
    · rename_i hn
      rw [← Option.some.inj h, hn]
    · cases h
  · rintro rfl
    rw [Nat.log2_two_pow, if_pos rfl]

/-! ## Placements -/

/-- The bits that `targets` leaves, in ascending order. -/
def others (n : Nat) (targets : List Nat) : List Nat :=
  (List.range n).filter fun q => !targets.contains q

/-- An operator stands on these qubits among `n`: it has the right size for them, they differ and
they exist. -/
structure Placed (n : Nat) (operator : SquareMatrix A) (targets : List Nat) : Prop where
  dim_eq : operator.dim = 2 ^ targets.length
  nodup : targets.Nodup
  lt : ∀ t ∈ targets, t < n

variable {n : Nat} {operator : SquareMatrix A} {targets : List Nat}

theorem mem_others {q : Nat} : q ∈ others n targets ↔ q < n ∧ q ∉ targets := by
  simp [others]

/-- The targets and the other bits are all the bits, each once. -/
theorem append_others_perm (hd : targets.Nodup) (hn : ∀ t ∈ targets, t < n) :
    (targets ++ others n targets).Perm (List.range n) := by
  refine (List.perm_ext_iff_of_nodup ?_ List.nodup_range).mpr fun q => ?_
  · refine List.Nodup.append hd (List.nodup_range.filter _) fun q hq ho => ?_
    exact (mem_others.mp ho).2 hq
  · rw [List.mem_append, mem_others, List.mem_range]
    constructor
    · rintro (hq | ⟨hq, -⟩)
      · exact hn q hq
      · exact hq
    · intro hq
      by_cases ht : q ∈ targets
      · exact Or.inl ht
      · exact Or.inr ⟨hq, ht⟩

theorem length_append_others (hd : targets.Nodup) (hn : ∀ t ∈ targets, t < n) :
    (targets ++ others n targets).length = n := by
  rw [(append_others_perm hd hn).length_eq, List.length_range]

theorem placement_eq_ok (h : Placed n operator targets) :
    placement n targets operator = .ok (targets ++ others n targets) := by
  have hq : operator.qubits? = some targets.length := exactLog2?_eq_some_iff.mpr h.dim_eq
  have hf : targets.find? (n ≤ ·) = none := by
    rw [List.find?_eq_none]
    intro t ht
    rw [decide_eq_true_eq]
    exact Nat.not_le.mpr (h.lt t ht)
  unfold placement
  rw [hq]
  simp only [ne_eq, not_true_eq_false, if_false, hf]
  rfl

theorem of_placement_ok {positions : List Nat}
    (h : placement n targets operator = .ok positions) :
    operator.dim = 2 ^ targets.length ∧ (∀ t ∈ targets, t < n) ∧
      positions = targets ++ others n targets := by
  unfold placement at h
  split at h
  · cases h
  · rename_i width hq
    split at h
    · cases h
    · rename_i hlen
      split at h
      · cases h
      · rename_i hfind
        rw [ne_eq, Decidable.not_not] at hlen
        refine ⟨by rw [hlen]; exact exactLog2?_eq_some_iff.mp hq, fun t ht => ?_,
          (Except.ok.inj h).symm⟩
        have := List.find?_eq_none.mp hfind t ht
        rw [decide_eq_true_eq] at this
        exact Nat.not_le.mp this

theorem isPermutation_of_perm {positions : List Nat}
    (h : positions.Perm (List.range n)) : SquareMatrix.isPermutation positions = true := by
  unfold SquareMatrix.isPermutation
  rw [List.all_eq_true]
  intro q hq
  rw [h.length_eq, List.length_range] at hq
  exact List.contains_iff_mem.mpr (h.mem_iff.mpr hq)

theorem perm_of_isPermutation {positions : List Nat}
    (h : SquareMatrix.isPermutation positions = true) :
    positions.Perm (List.range positions.length) := by
  have hall : List.range positions.length ⊆ positions :=
    fun q hq => List.contains_iff_mem.mp (List.all_eq_true.mp h q hq)
  exact ((List.nodup_range.subperm hall).perm_of_length_le (by simp)).symm

/-- A placement with a repeated target is no permutation. -/
theorem nodup_of_isPermutation
    (h : SquareMatrix.isPermutation (targets ++ others n targets) = true) : targets.Nodup :=
  ((perm_of_isPermutation h).nodup_iff.mpr List.nodup_range).of_append_left

theorem length_add_length_others (hd : targets.Nodup) (hn : ∀ t ∈ targets, t < n) :
    targets.length + (others n targets).length = n := by
  rw [← List.length_append, length_append_others hd hn]

/-- Distinct qubits are no more than there are. -/
theorem length_le_of_nodup (hd : targets.Nodup) (hn : ∀ t ∈ targets, t < n) :
    targets.length ≤ n := by
  have hlength := length_add_length_others hd hn
  omega

/-! ## One step -/

section Step

variable [Zero A] [One A] [Add A] [Mul A] [BEq A] {q : Nat} {before after : SquareMatrix A}

omit [Add A] in
theorem of_redimension_ok {positions : List Nat} {lift : SquareMatrix A}
    (h : operator.redimension positions = .ok lift) :
    SquareMatrix.isPermutation positions = true ∧ lift.dim = 2 ^ positions.length := by
  unfold SquareMatrix.redimension at h
  simp only at h
  split at h
  · cases h
  · split at h
    · rename_i hperm
      obtain rfl := Except.ok.inj h
      exact ⟨hperm, rfl⟩
    · cases h

omit [Add A] in
/-- A lift that succeeds is one of a placed operator. -/
theorem placed_of_lift_ok {positions : List Nat} {lift : SquareMatrix A}
    (hp : placement n targets operator = .ok positions)
    (hl : operator.redimension positions = .ok lift) :
    Placed n operator targets ∧ lift.dim = 2 ^ n := by
  obtain ⟨hdim, hlt, rfl⟩ := of_placement_ok hp
  obtain ⟨hperm, hlift⟩ := of_redimension_ok hl
  have hnodup := nodup_of_isPermutation hperm
  rw [length_append_others hnodup hlt] at hlift
  exact ⟨⟨hdim, hnodup, hlt⟩, hlift⟩

omit [One A] in
theorem of_mul_ok {a b product : SquareMatrix A} (h : a.mul b = .ok product) :
    b.dim = a.dim ∧ product.dim = a.dim := by
  unfold SquareMatrix.mul at h
  split at h
  · rename_i hdim
    obtain rfl := Except.ok.inj h
    exact ⟨hdim, rfl⟩
  · cases h

/-- A step that can be added to a circuit is placed, and keeps the size. -/
theorem Gate.of_advance_ok (h : Gate.advance q before operator targets = .ok after) :
    Placed q operator targets ∧ before.dim = 2 ^ q ∧ after.dim = 2 ^ q := by
  obtain ⟨positions, hp, h⟩ := bind_eq_ok.mp h
  obtain ⟨lift, hl, hm⟩ := bind_eq_ok.mp h
  obtain ⟨hplaced, hdim⟩ := placed_of_lift_ok hp hl
  obtain ⟨hbefore, hafter⟩ := of_mul_ok hm
  exact ⟨hplaced, hbefore.trans hdim, hafter.trans hdim⟩

omit [Add A] in
/-- The lift of a placed operator. -/
theorem exists_redimension (h : Placed n operator targets) :
    ∃ lift, operator.redimension (targets ++ others n targets) = .ok lift ∧
      lift.dim = 2 ^ n := by
  have hlen := length_append_others h.nodup h.lt
  have hsmall : ¬(operator.qubits?.isNone = true ∨ Nat.pow 2 n < operator.dim) := by
    have hq : operator.qubits? = some targets.length := exactLog2?_eq_some_iff.mpr h.dim_eq
    have hk : targets.length ≤ n := by
      have := length_add_length_others h.nodup h.lt
      omega
    rw [hq, h.dim_eq, not_or]
    exact ⟨Bool.false_ne_true, Nat.not_lt.mpr (Nat.pow_le_pow_right (by decide) hk)⟩
  unfold SquareMatrix.redimension
  simp only [hlen]
  rw [if_neg hsmall, if_pos (isPermutation_of_perm (append_others_perm h.nodup h.lt))]
  exact ⟨_, rfl, rfl⟩

/-- A placed step can be added to a circuit of the right size. -/
theorem Gate.exists_advance (h : Placed q operator targets) (hb : before.dim = 2 ^ q) :
    ∃ after, Gate.advance q before operator targets = .ok after := by
  obtain ⟨lift, hl, hdim⟩ := exists_redimension h
  unfold Gate.advance
  simp only [placement_eq_ok h, hl, bind, Except.bind]
  unfold SquareMatrix.mul
  rw [if_pos (hb.trans hdim.symm)]
  exact ⟨_, rfl⟩

end Step

/-! ## Circuits that are too wide -/

/-- The error of a circuit that is too wide for an address space, among circuits of these widths. -/
def AlgebraError.Exceeds (widths : List Nat) (e : AlgebraError) : Prop :=
  ∃ q ∈ widths, SquareMatrix.maxQubits < q ∧ e = .unaddressable q

theorem AlgebraError.Exceeds.mono {widths more : List Nat} {e : AlgebraError} (h : e.Exceeds widths)
    (hsub : widths ⊆ more) : e.Exceeds more :=
  h.imp fun _ hq => ⟨hsub hq.1, hq.2⟩

section Identity

variable [Zero A] [One A] {q : Nat}

theorem identityOn_eq_ok {start : SquareMatrix A} : SquareMatrix.identityOn q = .ok start ↔
    q ≤ SquareMatrix.maxQubits ∧ start = .identity (2 ^ q) := by
  unfold SquareMatrix.identityOn
  by_cases h : SquareMatrix.maxQubits < q
  · rw [if_pos h]
    exact ⟨nofun, fun hle => absurd hle.1 (Nat.not_le.mpr h)⟩
  · rw [if_neg h]
    exact ⟨fun heq => ⟨Nat.not_lt.mp h, (Except.ok.inj heq).symm⟩,
      fun heq => congrArg Except.ok heq.2.symm⟩

theorem ends_identityOn (q : Nat) : Ends (SquareMatrix.identityOn q : Except _ (SquareMatrix A))
    (fun start => q ≤ SquareMatrix.maxQubits ∧ start.dim = 2 ^ q) (AlgebraError.Exceeds [q]) := by
  unfold SquareMatrix.identityOn
  by_cases h : SquareMatrix.maxQubits < q
  · rw [if_pos h]
    exact ⟨q, List.mem_singleton_self q, h, rfl⟩
  · rw [if_neg h]
    exact ⟨Nat.not_lt.mp h, rfl⟩

variable [Add A] [Mul A] [BEq A]

/-- A composite that is not too wide resolves as its circuit is run after an identity. -/
theorem Gate.resolve_composite (hq : q ≤ SquareMatrix.maxQubits) (circuit : Circuit A) :
    (composite q circuit).resolve = resolveAfter q (.identity (2 ^ q)) circuit := by
  rw [resolve, identityOn_eq_ok.mpr ⟨hq, rfl⟩]
  rfl

theorem Gate.resolve_composite_eq_ok {circuit : Circuit A} {operator : SquareMatrix A} :
    (composite q circuit).resolve = .ok operator ↔ q ≤ SquareMatrix.maxQubits ∧
      resolveAfter q (.identity (2 ^ q)) circuit = .ok operator := by
  constructor
  · intro h
    have hstart := h
    rw [resolve] at hstart
    obtain ⟨start, hstart, -⟩ := bind_eq_ok.mp hstart
    obtain ⟨hq, -⟩ := identityOn_eq_ok.mp hstart
    exact ⟨hq, (resolve_composite hq circuit).symm.trans h⟩
  · exact fun ⟨hq, h⟩ => (resolve_composite hq circuit).trans h

end Identity

end OpenQasm
