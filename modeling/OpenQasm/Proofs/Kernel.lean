import Mathlib.Algebra.BigOperators.Group.Finset.Basic
import Mathlib.Algebra.BigOperators.Ring.Finset
import Mathlib.Algebra.Ring.Basic
import OpenQasm.Linear.StateVector
import OpenQasm.Proofs.Bits

/-!
# Kernels as sums

Over a commutative ring the entries of what a kernel computes are finite sums. The test for zero
must be exact (`LawfulBEq`), so that the entries `matMul` skips are those that add nothing.

* `entry_matApply`, `entry_matMul`: the matrix-vector and the matrix product.
* `entry_applyOnTargets`: an entry reads the row of its gathered index and the entries of the
  vector at its patched indices.
* `size_of_zeroState`, `get_zeroState`: qubits that are all `0`.
* `sum_patch`: summing over all indices with given unlisted bits is summing over the listed ones.
-/

namespace OpenQasm.Kernel

open BitIndex Finset

variable {A : Type}

/-! ## Arrays by their entries -/

theorem size_tabulate (n : Nat) (f : Nat → A) : (tabulate n f).size = n := Array.size_ofFn

theorem entry_tabulate [Zero A] (f : Nat → A) {i n : Nat} (h : i < n) :
    entry (tabulate n f) i = f i := by
  rw [entry, tabulate, Array.getD_eq_getD_getElem?, Array.getElem?_ofFn, dif_pos h,
    Option.getD_some]

/-- Arrays of one size are equal when their entries are. -/
theorem ext_entries [Zero A] {xs ys : Array A} (hsize : xs.size = ys.size)
    (h : ∀ i, i < xs.size → entry xs i = entry ys i) : xs = ys := by
  refine Array.ext hsize fun i hx hy => ?_
  have := h i hx
  rwa [entry, entry, Array.getD_eq_getD_getElem?, Array.getD_eq_getD_getElem?,
    Array.getElem?_eq_getElem hx, Array.getElem?_eq_getElem hy, Option.getD_some,
    Option.getD_some] at this

/-- The place of a row and a column in a matrix that is stored row by row. -/
theorem cell_lt {i j dim : Nat} (hi : i < dim) (hj : j < dim) : i * dim + j < dim * dim :=
  calc i * dim + j < i * dim + dim := Nat.add_lt_add_left hj _
    _ = (i + 1) * dim := (Nat.succ_mul i dim).symm
    _ ≤ dim * dim := Nat.mul_le_mul_right dim hi

theorem cell_div {i j dim : Nat} (hj : j < dim) : (i * dim + j) / dim = i := by
  rw [Nat.mul_comm, Nat.mul_add_div (Nat.zero_lt_of_lt hj), Nat.div_eq_of_lt hj, Nat.add_zero]

theorem cell_mod {i j dim : Nat} (hj : j < dim) : (i * dim + j) % dim = j := by
  rw [Nat.mul_comm, Nat.mul_add_mod, Nat.mod_eq_of_lt hj]

/-! ## Sums -/

theorem sumTo_eq_sum [AddCommMonoid A] (n : Nat) (f : Nat → A) :
    sumTo n f = ∑ k ∈ range n, f k := by
  induction n with
  | zero => rfl
  | succ n ih =>
    rw [sum_range_succ, ← ih]
    simp only [sumTo, Nat.fold_succ]

theorem foldl_range_add [AddCommMonoid A] (n : Nat) (f : Nat → A) :
    (List.range n).foldl (fun acc k => acc + f k) 0 = ∑ k ∈ range n, f k := by
  induction n with
  | zero => rfl
  | succ n ih => rw [List.range_succ, List.foldl_append, ih, sum_range_succ]; rfl

/-- A sum over the cells of a grid, row by row. -/
theorem sum_range_grid [AddCommMonoid A] (rows columns : Nat) (f : Nat → A) :
    ∑ t ∈ range (rows * columns), f t =
      ∑ i ∈ range rows, ∑ j ∈ range columns, f (i * columns + j) := by
  induction rows with
  | zero => simp
  | succ rows ih => rw [Nat.succ_mul, sum_range_add, ih, sum_range_succ]

theorem sumTo_congr [Zero A] [Add A] {n : Nat} {f g : Nat → A} (h : ∀ j < n, f j = g j) :
    sumTo n f = sumTo n g := by
  have hstep : (fun (j : Nat) (_ : j < n) (acc : A) => acc + f j) = fun j _ acc => acc + g j := by
    funext j hj acc
    rw [h j hj]
  rw [sumTo, hstep, sumTo]

theorem size_applyOnTargets [Zero A] [Add A] [Mul A] (vector matrix : Array A)
    (targets : List Nat) : (applyOnTargets vector matrix targets).size = vector.size :=
  size_tabulate _ _

/-- An entry reads the row of its gathered index and the entries of the vector at its patches. -/
theorem applyOnTargets_eq_tabulate [Zero A] [Add A] [Mul A] (vector matrix : Array A)
    (targets : List Nat) :
    applyOnTargets vector matrix targets = tabulate vector.size fun i =>
      sumTo (2 ^ targets.length) fun j =>
        entry matrix (gather targets i * 2 ^ targets.length + j) *
          entry vector (patch targets i j) := by
  rw [applyOnTargets]
  congr 1
  funext i
  refine sumTo_congr fun j hj => ?_
  rw [Array.getD_eq_getD_getElem?, Array.getElem?_ofFn, dif_pos hj, Option.getD_some]
  rfl

variable [CommRing A]

theorem entry_matApply (matrix vector : Array A) {dim i : Nat} (hi : i < dim) :
    entry (matApply matrix dim vector) i =
      ∑ j ∈ range dim, entry matrix (i * dim + j) * entry vector j := by
  rw [matApply, entry_tabulate _ hi, sumTo_eq_sum]

/-- Skipping the columns in which a row holds zero leaves the sum over all columns. -/
theorem foldl_support [BEq A] [LawfulBEq A] (matrix : Array A) (dim i : Nat) (f : Nat → A) :
    (support matrix dim i).foldl (fun acc k => acc + entry matrix (i * dim + k) * f k) 0 =
      ∑ k ∈ range dim, entry matrix (i * dim + k) * f k := by
  have hskip : (fun (acc : A) k =>
      if (!(entry matrix (i * dim + k) == 0)) = true
      then acc + entry matrix (i * dim + k) * f k else acc) =
      fun acc k => acc + entry matrix (i * dim + k) * f k := by
    funext acc k
    split
    · rfl
    · rename_i hz
      rw [Bool.not_eq_true', Bool.not_eq_false, beq_iff_eq] at hz
      rw [hz, zero_mul, add_zero]
  rw [support, Array.foldl_filter, hskip, ← Array.foldl_toList, Array.toList_range,
    foldl_range_add]

theorem entry_matMul [BEq A] [LawfulBEq A] (a b : Array A) {dim i j : Nat} (hi : i < dim)
    (hj : j < dim) :
    entry (matMul a b dim) (i * dim + j) =
      ∑ k ∈ range dim, entry a (i * dim + k) * entry b (k * dim + j) := by
  rw [matMul, entry_tabulate _ (cell_lt hi hj)]
  simp only [cell_div hj, cell_mod hj]
  rw [Array.getD_eq_getD_getElem?, Array.getElem?_ofFn, dif_pos hi, Option.getD_some]
  exact foldl_support a dim i fun k => entry b (k * dim + j)

theorem entry_applyOnTargets (vector matrix : Array A) (targets : List Nat) {i : Nat}
    (hi : i < vector.size) :
    entry (applyOnTargets vector matrix targets) i =
      ∑ j ∈ range (2 ^ targets.length),
        entry matrix (gather targets i * 2 ^ targets.length + j) *
          entry vector (patch targets i j) := by
  rw [applyOnTargets, entry_tabulate _ hi, sumTo_eq_sum]
  refine sum_congr rfl fun j hj => ?_
  rw [Array.getD_eq_getD_getElem?, Array.getElem?_ofFn, dif_pos (by simpa using hj),
    Option.getD_some]
  rfl

/-- Among the indices below `2 ^ n`, those that agree with `i` outside of `positions` are the
patches of `i`, so a sum over them is a sum over what the positions hold. -/
theorem sum_patch {positions : List Nat} {n i : Nat} (hd : positions.Nodup)
    (hn : ∀ p ∈ positions, p < n) (hi : i < 2 ^ n) (f : Nat → Nat → A) :
    (∑ c ∈ range (2 ^ n),
        if clear positions i = clear positions c then f (gather positions c) c else 0) =
      ∑ j ∈ range (2 ^ positions.length), f j (patch positions i j) := by
  rw [← sum_filter]
  symm
  refine sum_bij' (fun j _ => patch positions i j) (fun c _ => gather positions c) ?_ ?_ ?_ ?_ ?_
  · intro j _
    exact mem_filter.mpr ⟨mem_range.mpr (patch_lt hn hi j), (clear_patch positions i j).symm⟩
  · intro c _
    exact mem_range.mpr (gather_lt positions c)
  · intro j hj
    exact gather_patch hd (mem_range.mp hj) i
  · intro c hc
    rw [patch_congr (mem_filter.mp hc).2, patch_gather]
  · intro j hj
    rw [gather_patch hd (mem_range.mp hj)]

end OpenQasm.Kernel

namespace OpenQasm.StateVector

/-! ## Qubits that are all `0` -/

variable {A : Type} [Zero A] [One A] {width : Nat} {v : StateVector A}

theorem size_of_zeroState (h : zeroState width = .ok v) : v.size = 2 ^ width := by
  unfold zeroState at h
  split at h
  · cases h
  · obtain rfl := Except.ok.inj h
    simp [size, set, zeros]

theorem get_zeroState (h : zeroState width = .ok v) {i : Nat} (hi : i < 2 ^ width) :
    v.get i = if i = 0 then 1 else 0 := by
  unfold zeroState at h
  split at h
  · cases h
  · obtain rfl := Except.ok.inj h
    by_cases hzero : i = 0
    · rw [if_pos hzero, hzero]
      simp [get, Kernel.entry, set, zeros]
    · rw [if_neg hzero]
      simp [get, Kernel.entry, set, zeros, Ne.symm hzero, hi]

end OpenQasm.StateVector
