import Mathlib.Algebra.BigOperators.Group.Finset.Sigma
import OpenQasm.Proofs.Lift

/-!
# A resolved gate is its leaves, one after the other

The leaves of a gate are its operators in the order in which they run, each with the positions it
acts on: a step of a circuit numbers its targets inside the circuit, and `locate` follows them
outward. Applying the single operator that `resolve` answers is applying the leaves in turn.

* `applyOnTargets_identity`, `applyOnTargets_mul`, `applyOnTargets_lifted`: what the kernel does
  with the identity, with a product and with a lift. From the last two, one step of a circuit
  (`applyOnTargets_advance`) adds one application.
* `Gate.leaves_placed`: when a gate resolves, each leaf has the size of its positions, which differ
  and exist.
* `Gate.applyOnTargets_resolve`, `Circuit.applyOnTargets_resolveAfter`: the result, by induction on
  the gate.
-/

namespace OpenQasm

open BitIndex Kernel Finset

variable {A : Type}

mutual

/-- The operators of a gate that acts on `positions`, in the order in which they run, each with the
positions it acts on. -/
def Gate.leaves : Gate A → List Nat → List (SquareMatrix A × List Nat)
  | .operator matrix, positions => [(matrix, positions)]
  | .composite _ circuit, positions => circuit.leaves positions

/-- The operators of a circuit whose local qubits stand at `positions`. -/
def Circuit.leaves : Circuit A → List Nat → List (SquareMatrix A × List Nat)
  | .done, _ => []
  | .step gate targets rest, positions =>
    gate.leaves (locate positions targets) ++ rest.leaves positions

end

namespace Kernel

/-- Apply operators to their positions, one after the other. -/
def applyAll [Zero A] [Add A] [Mul A] (vector : Array A)
    (steps : List (SquareMatrix A × List Nat)) : Array A :=
  steps.foldl (fun v step => applyOnTargets v step.1.entries step.2) vector

/-! ## The kernel and the algebra of operators -/

section Algebra

variable [CommRing A] {vector : Array A} {positions targets : List Nat} {n q : Nat}

theorem applyAll_append (vector : Array A) (xs ys : List (SquareMatrix A × List Nat)) :
    applyAll vector (xs ++ ys) = applyAll (applyAll vector xs) ys := List.foldl_append

/-- The entries of an application, by the entries of an operator of the right size. -/
theorem entry_applyOnTargets_get {operator : SquareMatrix A}
    (hdim : operator.dim = 2 ^ targets.length) {i : Nat} (hi : i < vector.size) :
    entry (applyOnTargets vector operator.entries targets) i =
      ∑ j ∈ range (2 ^ targets.length),
        operator.get (gather targets i) j * entry vector (patch targets i j) := by
  rw [entry_applyOnTargets _ _ _ hi]
  simp only [SquareMatrix.get, hdim]

/-- Applying the identity changes nothing. -/
theorem applyOnTargets_identity (vector : Array A) (positions : List Nat) :
    applyOnTargets vector (SquareMatrix.identity (2 ^ positions.length)).entries positions =
      vector := by
  refine ext_entries (size_applyOnTargets ..) fun i hi => ?_
  rw [size_applyOnTargets] at hi
  rw [entry_applyOnTargets_get rfl hi,
    sum_eq_single_of_mem (gather positions i) (mem_range.mpr (gather_lt positions i))]
  · rw [SquareMatrix.get_identity (gather_lt _ i) (gather_lt _ i), if_pos rfl, one_mul,
      patch_gather]
  · intro j hj hne
    rw [SquareMatrix.get_identity (gather_lt _ i) (mem_range.mp hj), if_neg hne.symm, zero_mul]

/-- Applying a product is applying the right factor, then the left one. -/
theorem applyOnTargets_mul [BEq A] [LawfulBEq A] {a b product : SquareMatrix A}
    (hmul : a.mul b = .ok product) (ha : a.dim = 2 ^ positions.length)
    (hd : positions.Nodup) (hn : ∀ p ∈ positions, p < n) (hv : vector.size = 2 ^ n) :
    applyOnTargets vector product.entries positions =
      applyOnTargets (applyOnTargets vector b.entries positions) a.entries positions := by
  obtain ⟨hb, hproduct, hget⟩ := SquareMatrix.get_of_mul_ok hmul
  rw [ha] at hb hproduct hget
  refine ext_entries (by simp only [size_applyOnTargets]) fun i hi => ?_
  rw [size_applyOnTargets] at hi
  rw [entry_applyOnTargets_get hproduct hi,
    entry_applyOnTargets_get ha (by rwa [size_applyOnTargets])]
  have hinner : ∀ j, j < 2 ^ positions.length →
      entry (applyOnTargets vector b.entries positions) (patch positions i j) =
        ∑ l ∈ range (2 ^ positions.length), b.get j l * entry vector (patch positions i l) := by
    intro j hj
    rw [entry_applyOnTargets_get hb (by rw [hv] at hi ⊢; exact patch_lt hn hi j),
      gather_patch hd hj]
    simp only [patch_patch]
  calc ∑ l ∈ range (2 ^ positions.length),
        product.get (gather positions i) l * entry vector (patch positions i l)
      = ∑ l ∈ range (2 ^ positions.length), ∑ j ∈ range (2 ^ positions.length),
          a.get (gather positions i) j * (b.get j l * entry vector (patch positions i l)) := by
        refine sum_congr rfl fun l hl => ?_
        rw [hget _ _ (gather_lt _ _) (mem_range.mp hl), sum_mul]
        exact sum_congr rfl fun j _ => mul_assoc _ _ _
    _ = ∑ j ∈ range (2 ^ positions.length), ∑ l ∈ range (2 ^ positions.length),
          a.get (gather positions i) j * (b.get j l * entry vector (patch positions i l)) :=
        Finset.sum_comm
    _ = ∑ j ∈ range (2 ^ positions.length), a.get (gather positions i) j *
          entry (applyOnTargets vector b.entries positions) (patch positions i j) := by
        refine sum_congr rfl fun j hj => ?_
        rw [hinner j (mem_range.mp hj), mul_sum]

/-- Applying the lift of an operator is applying the operator at the located positions. -/
theorem applyOnTargets_lifted {operator : SquareMatrix A} (hq : positions.length = q)
    (h : Placed q operator targets) (hd : positions.Nodup) (vector : Array A) :
    applyOnTargets vector (lifted q operator targets).entries positions =
      applyOnTargets vector operator.entries (locate positions targets) := by
  subst hq
  refine ext_entries (by simp only [size_applyOnTargets]) fun i hi => ?_
  rw [size_applyOnTargets] at hi
  have hloc : (locate positions targets).length = targets.length := length_locate _ _
  rw [entry_applyOnTargets_get rfl hi, entry_applyOnTargets_get (by rw [hloc, h.dim_eq]) hi, hloc]
  calc ∑ c ∈ range (2 ^ positions.length),
        (lifted positions.length operator targets).get (gather positions i) c *
          entry vector (patch positions i c)
      = ∑ c ∈ range (2 ^ positions.length),
          if clear targets (gather positions i) = clear targets c
          then operator.get (gather targets (gather positions i)) (gather targets c) *
            entry vector (patch positions i c) else 0 := by
        refine sum_congr rfl fun c hc => ?_
        rw [get_lifted (gather_lt _ i) (mem_range.mp hc), ite_mul, zero_mul]
    _ = ∑ j ∈ range (2 ^ targets.length),
          operator.get (gather targets (gather positions i)) j *
            entry vector (patch positions i (patch targets (gather positions i) j)) :=
        sum_patch h.nodup h.lt (gather_lt positions i) fun j c =>
          operator.get (gather targets (gather positions i)) j * entry vector (patch positions i c)
    _ = _ := by
        simp only [patch_patch_gather hd h.lt, gather_gather h.lt]

end Algebra

end Kernel

/-! ## One step of a circuit -/

section Step

variable [CommRing A] [BEq A] [LawfulBEq A] {before after operator : SquareMatrix A}
  {positions targets : List Nat} {n q : Nat}

/-- Adding a well placed step multiplies by its lift. -/
theorem Gate.advance_eq_mul (h : Placed q operator targets) :
    Gate.advance q before operator targets = (lifted q operator targets).mul before := by
  unfold Gate.advance
  rw [placement_eq_ok h]
  simp only [bind, Except.bind, redimension_placement h]

/-- **A step adds one application**, at the located positions. -/
theorem Kernel.applyOnTargets_advance {vector : Array A}
    (h : Gate.advance q before operator targets = .ok after) (hq : positions.length = q)
    (hd : positions.Nodup) (hn : ∀ p ∈ positions, p < n) (hv : vector.size = 2 ^ n) :
    applyOnTargets vector after.entries positions =
      applyOnTargets (applyOnTargets vector before.entries positions) operator.entries
        (locate positions targets) := by
  obtain ⟨hplaced, -⟩ := Gate.of_advance_ok h
  rw [Gate.advance_eq_mul hplaced] at h
  rw [applyOnTargets_mul h (by rw [hq]; rfl) hd hn hv, applyOnTargets_lifted hq hplaced hd]

omit [CommRing A] [BEq A] [LawfulBEq A] in
/-- A well placed operator, its targets followed outward. -/
theorem Placed.locate (h : Placed positions.length operator targets) (hd : positions.Nodup)
    (hn : ∀ p ∈ positions, p < n) : Placed n operator (locate positions targets) where
  dim_eq := by rw [length_locate]; exact h.dim_eq
  nodup := locate_nodup hd h.nodup h.lt
  lt _ hp := hn _ (locate_mem h.lt hp)

end Step

/-! ## Whole gates -/

section Resolve

variable [CommRing A] [BEq A]

/-- Running a step of a circuit: its gate resolves, the step is added and the rest runs. -/
theorem Gate.of_resolveAfter_step {q : Nat} {before operator : SquareMatrix A} {gate : Gate A}
    {targets : List Nat} {rest : Circuit A}
    (h : resolveAfter q before (.step gate targets rest) = .ok operator) :
    ∃ inner after, gate.resolve = .ok inner ∧ advance q before inner targets = .ok after ∧
      resolveAfter q after rest = .ok operator := by
  unfold resolveAfter at h
  cases hg : gate.resolve with
  | error e => rw [hg] at h; cases h
  | ok inner =>
    rw [hg] at h
    cases ha : advance q before inner targets with
    | error e => simp only [bind, Except.bind, ha] at h; cases h
    | ok after =>
      simp only [bind, Except.bind, ha] at h
      exact ⟨inner, after, rfl, ha, h⟩

/-- Adding steps keeps the dimension. -/
theorem Circuit.dim_of_resolveAfter {q : Nat} : ∀ (circuit : Circuit A)
    {before operator : SquareMatrix A}, before.dim = 2 ^ q →
    Gate.resolveAfter q before circuit = .ok operator → operator.dim = 2 ^ q
  | .done, before, operator, hb, h => by
    rw [Gate.resolveAfter] at h
    rw [← Except.ok.inj h]
    exact hb
  | .step _ _ rest, _, _, _, h => by
    obtain ⟨_, _, _, ha, hr⟩ := Gate.of_resolveAfter_step h
    exact dim_of_resolveAfter rest (Gate.of_advance_ok ha).2.2 hr

/-- A composite that resolves to an operator for `positions` has as many local qubits. -/
theorem Gate.qubits_of_resolve {q n : Nat} {circuit : Circuit A} {operator : SquareMatrix A}
    {positions : List Nat} (h : (Gate.composite q circuit).resolve = .ok operator)
    (hp : Placed n operator positions) :
    positions.length = q ∧
      resolveAfter positions.length (.identity (2 ^ positions.length)) circuit =
        .ok operator := by
  obtain ⟨-, h⟩ := Gate.resolve_composite_eq_ok.mp h
  have hdim := Circuit.dim_of_resolveAfter circuit rfl h
  rw [hp.dim_eq] at hdim
  have hq := Nat.pow_right_injective (le_refl 2) hdim
  rw [hq]
  exact ⟨rfl, h⟩

mutual

/-- When a gate resolves to an operator that stands on `positions`, each leaf stands on its own
positions. -/
theorem Gate.leaves_placed {n : Nat} : ∀ (gate : Gate A) {operator : SquareMatrix A}
    {positions : List Nat}, gate.resolve = .ok operator → Placed n operator positions →
    ∀ leaf ∈ gate.leaves positions, Placed n leaf.1 leaf.2
  | .operator matrix, operator, positions, h, hp, leaf, hl => by
    rw [Gate.leaves, List.mem_singleton] at hl
    rw [Gate.resolve] at h
    obtain rfl := Except.ok.inj h
    rw [hl]
    exact hp
  | .composite q circuit, operator, positions, h, hp, leaf, hl => by
    obtain ⟨-, hr⟩ := Gate.qubits_of_resolve h hp
    rw [Gate.leaves] at hl
    exact Circuit.leaves_placed circuit hr hp.nodup hp.lt leaf hl

/-- The same of a circuit whose local qubits stand at distinct positions. -/
theorem Circuit.leaves_placed {n : Nat} : ∀ (circuit : Circuit A)
    {before operator : SquareMatrix A} {positions : List Nat},
    Gate.resolveAfter positions.length before circuit = .ok operator → positions.Nodup →
    (∀ p ∈ positions, p < n) → ∀ leaf ∈ circuit.leaves positions, Placed n leaf.1 leaf.2
  | .done, _, _, _, _, _, _, _, hl => absurd hl List.not_mem_nil
  | .step gate targets rest, before, operator, positions, h, hd, hn, leaf, hl => by
    obtain ⟨inner, after, hg, ha, hr⟩ := Gate.of_resolveAfter_step h
    rw [Circuit.leaves] at hl
    rcases List.mem_append.mp hl with hl | hl
    · exact Gate.leaves_placed gate hg ((Gate.of_advance_ok ha).1.locate hd hn) leaf hl
    · exact Circuit.leaves_placed rest hr hd hn leaf hl

end

mutual

/-- **A resolved gate is its leaves**: applying the operator it resolves to is applying its leaves
one after the other. -/
theorem Gate.applyOnTargets_resolve [LawfulBEq A] {n : Nat} : ∀ (gate : Gate A)
    {operator : SquareMatrix A} {positions : List Nat} {vector : Array A},
    gate.resolve = .ok operator →
    Placed n operator positions → vector.size = 2 ^ n →
    applyOnTargets vector operator.entries positions = applyAll vector (gate.leaves positions)
  | .operator matrix, operator, positions, vector, h, _, _ => by
    rw [Gate.resolve] at h
    obtain rfl := Except.ok.inj h
    rfl
  | .composite q circuit, operator, positions, vector, h, hp, hv => by
    obtain ⟨-, hr⟩ := Gate.qubits_of_resolve h hp
    rw [Circuit.applyOnTargets_resolveAfter circuit hr hp.nodup hp.lt hv,
      applyOnTargets_identity]
    rfl

/-- Running a circuit after an operator is applying that operator, then the leaves. -/
theorem Circuit.applyOnTargets_resolveAfter [LawfulBEq A] {n : Nat} : ∀ (circuit : Circuit A)
    {before operator : SquareMatrix A} {positions : List Nat} {vector : Array A},
    Gate.resolveAfter positions.length before circuit = .ok operator → positions.Nodup →
    (∀ p ∈ positions, p < n) → vector.size = 2 ^ n →
    applyOnTargets vector operator.entries positions =
      applyAll (applyOnTargets vector before.entries positions) (circuit.leaves positions)
  | .done, before, operator, positions, vector, h, _, _, _ => by
    rw [Gate.resolveAfter] at h
    obtain rfl := Except.ok.inj h
    rfl
  | .step gate targets rest, before, operator, positions, vector, h, hd, hn, hv => by
    obtain ⟨inner, after, hg, ha, hr⟩ := Gate.of_resolveAfter_step h
    have hplaced := (Gate.of_advance_ok ha).1.locate hd hn
    rw [Circuit.applyOnTargets_resolveAfter rest hr hd hn hv,
      applyOnTargets_advance ha rfl hd hn hv,
      Gate.applyOnTargets_resolve gate hg hplaced (by rwa [size_applyOnTargets]),
      Circuit.leaves, applyAll_append]

end

end Resolve

end OpenQasm
