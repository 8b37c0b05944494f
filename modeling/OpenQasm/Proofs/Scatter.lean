import Mathlib.Data.Setoid.Partition
import Mathlib.Order.Partition.Finpartition
import OpenQasm.Proofs.Algebra

/-!
# Indices that share their other bits

A kernel splits an index into the bits at its targets, which number a row, and the bits elsewhere,
which it leaves alone. The indices with given bits elsewhere are a `fiber`: the only ones that the
kernel reads for an entry (`Kernel.applyOnTargets_congr`). Taking an index apart and putting one
together again undo each other, so the fibers divide all indices into parts of one size.

* `spread_spread`, `spread_range`: moving bits composes as permutations do.
* `bijOn_spread`: a permutation of the bits permutes the indices below `2 ^ n`.
* `mem_fiber`, `card_fiber`, `isPartition_fibers`: what a fiber holds, how much, and that no index
  is left out or belongs to two of them.
* **`scatter_gather`**: all of it.
-/

namespace OpenQasm

namespace BitIndex

variable {positions outer inner : List Nat} {i j n : Nat}

/-! ## Permutations of bits -/

/-- The bit that goes to a position is found there. -/
theorem testBit_spread_of_getElem? (hd : positions.Nodup) {p : Nat}
    (hp : positions[j]? = some p) (i : Nat) : (spread positions i).testBit p = i.testBit j := by
  rw [Bool.eq_iff_iff, testBit_spread]
  constructor
  · rintro ⟨k, hk, hi⟩
    rwa [index_unique hd hp hk]
  · exact fun hi => ⟨j, hp, hi⟩

/-- Spreading what has been spread is spreading once. -/
theorem spread_spread (h : ∀ t ∈ inner, t < outer.length) (i : Nat) :
    spread outer (spread inner i) = spread (locate outer inner) i := by
  refine ext_bits fun b => ?_
  simp only [testBit_spread, getElem?_locate, Option.map_eq_some_iff]
  constructor
  · rintro ⟨t, ht, j, hj, hi⟩
    refine ⟨j, ⟨t, hj, ?_⟩, hi⟩
    rw [List.getD_eq_getElem?_getD, ht, Option.getD_some]
  · rintro ⟨j, ⟨t, hj, rfl⟩, hi⟩
    exact ⟨t, getElem?_getD (h t (List.mem_of_getElem? hj)), j, hj, hi⟩

/-- Bits that stay where they are. -/
theorem spread_range (hi : i < 2 ^ n) : spread (List.range n) i = i := by
  refine ext_bits fun b => ?_
  rw [testBit_spread]
  constructor
  · rintro ⟨j, hj, hij⟩
    obtain ⟨hlt, rfl⟩ := List.getElem?_eq_some_iff.mp hj
    rwa [List.getElem_range]
  · exact fun hb => ⟨b, List.getElem?_range (lt_of_testBit hi hb), hb⟩

theorem patch_zero (positions : List Nat) (j : Nat) :
    patch positions 0 j = spread positions j := by
  refine ext_bits fun b => ?_
  simp [testBit_patch, testBit_spread]

/-- **A permutation of the bits permutes the indices.** -/
theorem bijOn_spread (h : positions.Perm (List.range n)) :
    Set.BijOn (spread positions) (Set.Iio (2 ^ n)) (Set.Iio (2 ^ n)) := by
  have hd : positions.Nodup := h.nodup_iff.mpr List.nodup_range
  have hlength : positions.length = n := by rw [h.length_eq, List.length_range]
  have hlt : ∀ p ∈ positions, p < n := fun p hp => List.mem_range.mp (h.mem_iff.mp hp)
  rw [← funext (patch_zero positions)]
  refine ⟨fun j _ => patch_lt hlt (Nat.two_pow_pos n) j, fun j hj k hk heq => ?_, fun i hi => ?_⟩
  · -- what has been moved can be gathered again
    rw [← hlength] at hj hk
    rw [← gather_patch hd hj 0, ← gather_patch hd hk 0]
    exact congrArg (gather positions) heq
  · exact ⟨gather positions i, gather_lt_of_perm h i, patch_zero_gather h hi⟩

/-! ## Fibers -/

/-- The bits that are not listed, and what is put at the listed ones, do not meet. -/
theorem clear_and_spread (positions : List Nat) (i j : Nat) :
    clear positions i &&& spread positions j = 0 := by
  refine ext_bits fun b => ?_
  rw [Nat.testBit_and, Bool.and_eq_true, testBit_clear, testBit_spread, Nat.zero_testBit]
  refine iff_of_false ?_ Bool.false_ne_true
  rintro ⟨⟨-, hb⟩, k, hk, -⟩
  exact hb (List.mem_of_getElem? hk)

/-- The indices that a kernel combines for the entry at `i`: the bits of `i` that are not listed,
with anything at the listed positions. -/
def fiber (positions : List Nat) (i : Nat) : Finset Nat :=
  (Finset.range (2 ^ positions.length)).image fun j =>
    without (mask positions) i ||| spread positions j

theorem mem_fiber {c : Nat} : c ∈ fiber positions i ↔ clear positions c = clear positions i := by
  unfold fiber
  rw [Finset.mem_image]
  constructor
  · rintro ⟨j, -, rfl⟩
    exact clear_patch positions i j
  · intro h
    refine ⟨gather positions c, Finset.mem_range.mpr (gather_lt positions c), ?_⟩
    exact (patch_congr h.symm _).trans (patch_gather positions c)

theorem self_mem_fiber (positions : List Nat) (i : Nat) : i ∈ fiber positions i := mem_fiber.mpr rfl

theorem card_fiber (hd : positions.Nodup) (i : Nat) :
    (fiber positions i).card = 2 ^ positions.length := by
  unfold fiber
  rw [Finset.card_image_of_injOn, Finset.card_range]
  intro j hj k hk heq
  rw [Finset.mem_coe, Finset.mem_range] at hj hk
  rw [← gather_patch hd hj i, ← gather_patch hd hk i]
  exact congrArg (gather positions) heq

theorem fiber_eq_iff {c : Nat} : fiber positions c = fiber positions i ↔ c ∈ fiber positions i := by
  constructor
  · intro h
    rw [← h]
    exact self_mem_fiber positions c
  · intro h
    ext b
    rw [mem_fiber, mem_fiber, mem_fiber.mp h]

/-- **Every index is in one fiber.** -/
theorem isPartition_fibers (positions : List Nat) :
    Setoid.IsPartition (Set.range fun i => (fiber positions i : Set Nat)) := by
  convert Setoid.isPartition_classes (Setoid.ker (clear positions)) using 1
  ext fibers
  refine exists_congr fun i => ?_
  have hclass : (fiber positions i : Set Nat) = {c | clear positions c = clear positions i} := by
    ext c
    exact mem_fiber
  exact hclass ▸ eq_comm

theorem fiber_subset (h : ∀ p ∈ positions, p < n) (hi : i < 2 ^ n) :
    fiber positions i ⊆ Finset.range (2 ^ n) := by
  unfold fiber
  intro c hc
  obtain ⟨j, -, rfl⟩ := Finset.mem_image.mp hc
  exact Finset.mem_range.mpr (patch_lt h hi j)

/-- The fibers below `2 ^ n`, when the listed positions are below `n`. -/
theorem exists_finpartition (h : ∀ p ∈ positions, p < n) :
    ∃ fibers : Finpartition (Finset.range (2 ^ n)),
      fibers.parts = (Finset.range (2 ^ n)).image (fiber positions) := by
  refine ⟨.ofExistsUnique ((Finset.range (2 ^ n)).image (fiber positions)) ?_ ?_ ?_, rfl⟩
  · intro part hpart
    obtain ⟨i, hi, rfl⟩ := Finset.mem_image.mp hpart
    exact fiber_subset h (Finset.mem_range.mp hi)
  · intro c hc
    refine ⟨fiber positions c, ⟨Finset.mem_image_of_mem _ hc, self_mem_fiber positions c⟩, ?_⟩
    rintro part ⟨hpart, hmem⟩
    obtain ⟨i, -, rfl⟩ := Finset.mem_image.mp hpart
    exact (fiber_eq_iff.mpr hmem).symm
  · intro hempty
    obtain ⟨i, -, hi⟩ := Finset.mem_image.mp hempty
    exact Finset.notMem_empty i (hi ▸ self_mem_fiber positions i)

end BitIndex

open BitIndex

/-- **An entry of what a kernel computes** depends only on the entries of its fiber. -/
theorem Kernel.applyOnTargets_congr {A : Type} [Zero A] [Add A] [Mul A] {v w : Array A}
    (hsize : v.size = w.size) (matrix : Array A) {targets : List Nat} {i : Nat} (hi : i < v.size)
    (h : ∀ c ∈ fiber targets i, entry v c = entry w c) :
    entry (applyOnTargets v matrix targets) i = entry (applyOnTargets w matrix targets) i := by
  rw [applyOnTargets_eq_tabulate, applyOnTargets_eq_tabulate, entry_tabulate _ hi,
    entry_tabulate _ (hsize ▸ hi)]
  refine sumTo_congr fun j hj => ?_
  have hread : entry v (patch targets i j) = entry w (patch targets i j) :=
    h _ (Finset.mem_image_of_mem _ (Finset.mem_range.mpr hj))
  rw [hread]

/-- **Scattering and gathering bits undo each other.**

* Moving bits by a permutation of `0, ... n - 1` permutes the indices below `2 ^ n`. Bit `j` goes to
  the `j`-th position, and moving twice is moving by the composed permutation.
* Take any list of distinct targets. An index has its bits elsewhere and, at the targets, those of
  its row, which is one of the `2 ^ k` rows; any row can be put in their place, and is read back.
  The two parts share no bit.
* So the indices with given bits elsewhere divide all indices into parts of `2 ^ k`, and for targets
  below `n` the indices below `2 ^ n` as well. -/
theorem scatter_gather :
    (∀ n p, p.Perm (List.range n) →
      Set.BijOn (spread p) (Set.Iio (2 ^ n)) (Set.Iio (2 ^ n)) ∧
      (∀ i j b, p[j]? = some b → (spread p i).testBit b = i.testBit j) ∧
      (∀ i < 2 ^ n, spread (List.range n) i = i) ∧
      ∀ q, q.Perm (List.range n) → ∀ i, spread q (spread p i) = spread (p.map (q.getD · 0)) i) ∧
    ∀ targets : List Nat, targets.Nodup →
      (∀ i, gather targets i < 2 ^ targets.length ∧
        without (mask targets) i ||| spread targets (gather targets i) = i ∧
        ∀ j < 2 ^ targets.length,
          gather targets (without (mask targets) i ||| spread targets j) = j ∧
          without (mask targets) i &&& spread targets j = 0) ∧
      Setoid.IsPartition (Set.range fun i => (fiber targets i : Set Nat)) ∧
      (∀ i, i ∈ fiber targets i ∧ (fiber targets i).card = 2 ^ targets.length) ∧
      ∀ n, (∀ t ∈ targets, t < n) → ∃ fibers : Finpartition (Finset.range (2 ^ n)),
        fibers.parts = (Finset.range (2 ^ n)).image (fiber targets) := by
  refine ⟨fun n p hp => ?_, fun targets hd => ⟨fun i => ?_, ?_, fun i => ?_, ?_⟩⟩
  · have hd : p.Nodup := hp.nodup_iff.mpr List.nodup_range
    refine ⟨bijOn_spread hp, fun i j b hb => testBit_spread_of_getElem? hd hb i,
      fun i hi => spread_range hi, fun q hq i => spread_spread (fun t ht => ?_) i⟩
    rw [hq.length_eq, List.length_range]
    exact List.mem_range.mp (hp.mem_iff.mp ht)
  · refine ⟨gather_lt targets i, patch_gather targets i, fun j hj => ⟨gather_patch hd hj i, ?_⟩⟩
    exact clear_and_spread targets i j
  · exact isPartition_fibers targets
  · exact ⟨self_mem_fiber targets i, card_fiber hd i⟩
  · exact fun n h => exists_finpartition h

/-- Three bits moved in a circle, twice; and an index taken apart at the bits 3 and 1, in this
order. -/
theorem scatter_gather_circle :
    spread [2, 0, 1] (spread [2, 0, 1] 6) = spread [1, 2, 0] 6 ∧
      without (mask [3, 1]) 13 ||| spread [3, 1] (gather [3, 1] 13) = 13 ∧
      gather [3, 1] (without (mask [3, 1]) 13 ||| spread [3, 1] 2) = 2 ∧
      (fiber [3, 1] 13).card = 4 := by
  obtain ⟨hpermute, hsplit⟩ := scatter_gather
  have hcircle := hpermute 3 [2, 0, 1] (by decide)
  obtain ⟨hparts, -, hfibers, -⟩ := hsplit [3, 1] (by decide)
  exact ⟨hcircle.2.2.2 [2, 0, 1] (by decide) 6, (hparts 13).2.1,
    ((hparts 13).2.2 2 (by decide)).1, (hfibers 13).2⟩

end OpenQasm
