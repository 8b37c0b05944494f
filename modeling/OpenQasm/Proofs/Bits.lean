import Mathlib.Data.List.Nodup
import Mathlib.Data.Nat.Bitwise
import Mathlib.Tactic.Common
import OpenQasm.Linear.BitIndex

/-!
# Scattering and gathering bits

What `spread`, `gather`, `mask` and `clear` do is said bit by bit, once for each of them
(`testBit_spread`, `testBit_gather`, `testBit_mask`, `testBit_clear`); every law below is read off
those four. Lists of positions may be in any order. Where two equal positions would interfere they
are assumed to differ.

`patch positions i j` is the index `i` with its bits at `positions` replaced by those of `j`: the
index that a kernel reads. `locate outer inner` takes positions inside a selection to positions in
the whole index.

* `gather_patch`, `patch_gather`, `clear_patch`: the listed bits and the others make up an index,
  and neither disturbs the other.
* `gather_gather`, `patch_patch_gather`: selecting inside a selection is selecting once, at the
  located positions.
* `field_eq_gather`: a field is the selection of consecutive bits (`block`).
-/

namespace OpenQasm.BitIndex

variable {positions : List Nat} {i j b n : Nat}

/-- The index `i` with its bits at `positions` replaced by those of `j`. -/
def patch (positions : List Nat) (i j : Nat) : Nat := clear positions i ||| spread positions j

/-- The positions of `inner`, numbered inside `outer`, in the index that `outer` selects from. -/
def locate (outer inner : List Nat) : List Nat := inner.map (outer.getD · 0)

/-! ## Bit by bit -/

/-- Two indices are equal when they have the same bits set. -/
theorem ext_bits (h : ∀ b, i.testBit b = true ↔ j.testBit b = true) : i = j :=
  Nat.eq_of_testBit_eq fun b => Bool.eq_iff_iff.mpr (h b)

theorem testBit_toNat_add_two_mul (c : Bool) (x k : Nat) :
    (c.toNat + 2 * x).testBit k = if k = 0 then c else x.testBit (k - 1) := by
  cases k with
  | zero => cases c <;> simp [Nat.testBit_zero]
  | succ k =>
    have hdiv : (c.toNat + 2 * x) / 2 = x := by
      have := Bool.toNat_lt c
      omega
    rw [Nat.testBit_add_one, hdiv, if_neg (Nat.succ_ne_zero k), Nat.add_sub_cancel]

theorem testBit_one_shiftLeft (p b : Nat) : (1 <<< p).testBit b = decide (p = b) := by
  rw [Nat.one_shiftLeft, Nat.testBit_two_pow]

/-- Bit `j` of a gathered index is the bit at the `j`-th position. -/
theorem testBit_gather (positions : List Nat) (i j : Nat) :
    (gather positions i).testBit j = true ↔ ∃ p, positions[j]? = some p ∧ i.testBit p = true := by
  induction positions generalizing j with
  | nil => simp [gather]
  | cons p ps ih =>
    rw [gather, testBit_toNat_add_two_mul]
    cases j with
    | zero => simp
    | succ j => simp [ih]

/-- Bit `b` of a spread index is set when some set bit goes to `b`. -/
theorem testBit_spread (positions : List Nat) (i b : Nat) :
    (spread positions i).testBit b = true ↔
      ∃ j, positions[j]? = some b ∧ i.testBit j = true := by
  induction positions generalizing i with
  | nil => simp [spread]
  | cons p ps ih =>
    rw [spread, Nat.testBit_or, Bool.or_eq_true, ih]
    constructor
    · rintro (h | ⟨j, hj, hi⟩)
      · refine ⟨0, ?_⟩
        split at h
        · rename_i h0
          rw [testBit_one_shiftLeft, decide_eq_true_eq] at h
          exact ⟨by rw [h]; rfl, h0⟩
        · simp at h
      · exact ⟨j + 1, hj, by rw [Nat.testBit_add_one]; exact hi⟩
    · rintro ⟨j, hj, hi⟩
      cases j with
      | zero =>
        left
        rw [if_pos hi, testBit_one_shiftLeft, decide_eq_true_eq]
        exact Option.some.inj hj
      | succ j => exact Or.inr ⟨j, hj, by rw [Nat.testBit_add_one] at hi; exact hi⟩

/-- The mask has the listed bits. -/
theorem testBit_mask (positions : List Nat) (b : Nat) :
    (mask positions).testBit b = true ↔ b ∈ positions := by
  suffices h : ∀ m, (positions.foldl (fun m p => m ||| 1 <<< p) m).testBit b = true ↔
      m.testBit b = true ∨ b ∈ positions by
    simpa [mask] using h 0
  induction positions with
  | nil => simp
  | cons p ps ih =>
    intro m
    rw [List.foldl_cons, ih, Nat.testBit_or, Bool.or_eq_true, testBit_one_shiftLeft,
      decide_eq_true_eq, List.mem_cons, or_assoc, @eq_comm _ p b]

/-- Clearing leaves the bits that are not listed. -/
theorem testBit_clear (positions : List Nat) (i b : Nat) :
    (clear positions i).testBit b = true ↔ i.testBit b = true ∧ b ∉ positions := by
  rw [clear, without, Nat.testBit_xor, Nat.testBit_and, ← testBit_mask]
  cases i.testBit b <;> cases (mask positions).testBit b <;> simp

/-- A patched index has the bits of `j` at the listed positions and those of `i` elsewhere. -/
theorem testBit_patch (positions : List Nat) (i j b : Nat) :
    (patch positions i j).testBit b = true ↔
      (i.testBit b = true ∧ b ∉ positions) ∨
        ∃ k, positions[k]? = some b ∧ j.testBit k = true := by
  rw [patch, Nat.testBit_or, Bool.or_eq_true, testBit_clear, testBit_spread]

/-! ## Ranges -/

theorem lt_two_pow_of_testBit (h : ∀ b, i.testBit b = true → b < n) : i < 2 ^ n :=
  Nat.lt_pow_two_of_testBit i fun b hb => by
    cases hi : i.testBit b with
    | false => rfl
    | true => exact absurd (h b hi) (Nat.not_lt.mpr hb)

theorem lt_of_testBit (hi : i < 2 ^ n) (h : i.testBit b = true) : b < n := by
  by_contra hb
  have hle : 2 ^ n ≤ 2 ^ b := Nat.pow_le_pow_right (by decide) (Nat.not_lt.mp hb)
  have hclear := Nat.testBit_lt_two_pow (Nat.lt_of_lt_of_le hi hle)
  rw [h] at hclear
  cases hclear

theorem lt_length_of_getElem? {p : Nat} (h : positions[j]? = some p) : j < positions.length :=
  (List.getElem?_eq_some_iff.mp h).1

theorem gather_lt (positions : List Nat) (i : Nat) : gather positions i < 2 ^ positions.length :=
  lt_two_pow_of_testBit fun j hj => by
    obtain ⟨p, hp, -⟩ := (testBit_gather positions i j).mp hj
    exact lt_length_of_getElem? hp

theorem patch_lt (h : ∀ p ∈ positions, p < n) (hi : i < 2 ^ n) (j : Nat) :
    patch positions i j < 2 ^ n :=
  lt_two_pow_of_testBit fun b hb => by
    rcases (testBit_patch positions i j b).mp hb with ⟨hib, -⟩ | ⟨k, hk, -⟩
    · exact lt_of_testBit hi hib
    · exact h b (List.mem_of_getElem? hk)

/-! ## Listed bits and the others -/

/-- Distinct positions: each stands at one place of the list. -/
theorem index_unique (hd : positions.Nodup) {p k l : Nat} (hk : positions[k]? = some p)
    (hl : positions[l]? = some p) : k = l :=
  (List.getElem?_inj (lt_length_of_getElem? hk) hd).mp (hk.trans hl.symm)

/-- The gathered bits of a patched index are those that were put there. -/
theorem gather_patch (hd : positions.Nodup) (hj : j < 2 ^ positions.length) (i : Nat) :
    gather positions (patch positions i j) = j := by
  refine ext_bits fun k => ?_
  rw [testBit_gather]
  constructor
  · rintro ⟨p, hk, hp⟩
    rcases (testBit_patch positions i j p).mp hp with ⟨-, hmem⟩ | ⟨l, hl, hjl⟩
    · exact absurd (List.mem_of_getElem? hk) hmem
    · rw [index_unique hd hk hl]
      exact hjl
  · intro hjk
    have hk := List.getElem?_eq_getElem (lt_of_testBit hj hjk)
    exact ⟨_, hk, (testBit_patch ..).mpr (Or.inr ⟨k, hk, hjk⟩)⟩

/-- Patching keeps the bits that are not listed. -/
theorem clear_patch (positions : List Nat) (i j : Nat) :
    clear positions (patch positions i j) = clear positions i := by
  refine ext_bits fun b => ?_
  rw [testBit_clear, testBit_patch, testBit_clear]
  constructor
  · rintro ⟨h | ⟨k, hk, -⟩, hb⟩
    · exact h
    · exact absurd (List.mem_of_getElem? hk) hb
  · rintro ⟨hi, hb⟩
    exact ⟨Or.inl ⟨hi, hb⟩, hb⟩

/-- An index is made up of its gathered bits and the others. -/
theorem patch_gather (positions : List Nat) (i : Nat) :
    patch positions i (gather positions i) = i := by
  refine ext_bits fun b => ?_
  rw [testBit_patch]
  constructor
  · rintro (⟨hi, -⟩ | ⟨k, hk, hg⟩)
    · exact hi
    · obtain ⟨p, hp, hi⟩ := (testBit_gather ..).mp hg
      rw [hk] at hp
      rwa [Option.some.inj hp]
  · intro hi
    by_cases hb : b ∈ positions
    · obtain ⟨k, hk⟩ := List.mem_iff_getElem?.mp hb
      exact Or.inr ⟨k, hk, (testBit_gather ..).mpr ⟨b, hk, hi⟩⟩
    · exact Or.inl ⟨hi, hb⟩

/-- Only the bits outside the list of the patched index matter. -/
theorem patch_congr {i' : Nat} (h : clear positions i = clear positions i') (j : Nat) :
    patch positions i j = patch positions i' j := by
  rw [patch, patch, h]

/-- A second patch at the same positions undoes the first. -/
theorem patch_patch (positions : List Nat) (i j l : Nat) :
    patch positions (patch positions i j) l = patch positions i l :=
  patch_congr (clear_patch positions i j) l

/-! ## Selections side by side -/

/-- The bits of a list of positions come before those of the list behind it. -/
theorem gather_append (ps qs : List Nat) (i : Nat) :
    gather (ps ++ qs) i = gather ps i + 2 ^ ps.length * gather qs i := by
  induction ps with
  | nil => simp [gather]
  | cons p ps ih =>
    rw [List.cons_append, gather, ih, gather, List.length_cons, Nat.pow_succ, Nat.mul_add,
      ← Nat.add_assoc, Nat.mul_comm (2 ^ ps.length) 2, Nat.mul_assoc]

theorem gather_append_mod (ps qs : List Nat) (i : Nat) :
    gather (ps ++ qs) i % 2 ^ ps.length = gather ps i := by
  rw [gather_append, Nat.add_mul_mod_self_left, Nat.mod_eq_of_lt (gather_lt ps i)]

theorem gather_append_div (ps qs : List Nat) (i : Nat) :
    gather (ps ++ qs) i / 2 ^ ps.length = gather qs i := by
  rw [gather_append, Nat.add_mul_div_left _ _ (Nat.two_pow_pos _),
    Nat.div_eq_of_lt (gather_lt ps i), Nat.zero_add]

/-! ## Selections inside selections -/

theorem getElem?_locate (outer inner : List Nat) (k : Nat) :
    (locate outer inner)[k]? = (inner[k]?).map (outer.getD · 0) := List.getElem?_map

theorem length_locate (outer inner : List Nat) : (locate outer inner).length = inner.length :=
  List.length_map _

/-- A position of a selection, looked up in a list that is long enough. -/
theorem getElem?_getD {outer : List Nat} {t : Nat} (ht : t < outer.length) :
    outer[t]? = some (outer.getD t 0) := by
  rw [List.getD_eq_getElem?_getD, List.getElem?_eq_getElem ht, Option.getD_some]

theorem locate_mem {outer inner : List Nat} (h : ∀ t ∈ inner, t < outer.length) {p : Nat}
    (hp : p ∈ locate outer inner) : p ∈ outer := by
  obtain ⟨t, ht, rfl⟩ := List.mem_map.mp hp
  exact List.mem_of_getElem? (getElem?_getD (h t ht))

theorem locate_nodup {outer inner : List Nat} (hd : outer.Nodup) (hi : inner.Nodup)
    (h : ∀ t ∈ inner, t < outer.length) : (locate outer inner).Nodup :=
  List.Nodup.map_on (fun s hs t ht hst =>
    index_unique hd (getElem?_getD (h s hs)) (hst ▸ getElem?_getD (h t ht))) hi

/-- Gathering from gathered bits is gathering once. -/
theorem gather_gather {outer inner : List Nat} (h : ∀ t ∈ inner, t < outer.length) (i : Nat) :
    gather inner (gather outer i) = gather (locate outer inner) i := by
  refine ext_bits fun k => ?_
  rw [testBit_gather, testBit_gather, getElem?_locate]
  cases hk : inner[k]? with
  | none => simp
  | some t =>
    have ht := getElem?_getD (h t (List.mem_of_getElem? hk))
    simp only [Option.some.injEq, exists_eq_left', Option.map_some, testBit_gather, ht]

/-- Patching the gathered bits and putting them back is patching at the located positions. -/
theorem patch_patch_gather {outer inner : List Nat} (hd : outer.Nodup)
    (h : ∀ t ∈ inner, t < outer.length) (i j : Nat) :
    patch outer i (patch inner (gather outer i) j) = patch (locate outer inner) i j := by
  refine ext_bits fun b => ?_
  rw [testBit_patch, testBit_patch]
  constructor
  · rintro (⟨hi, hb⟩ | ⟨t, ht, hbit⟩)
    · exact Or.inl ⟨hi, fun hmem => hb (locate_mem h hmem)⟩
    · rcases (testBit_patch ..).mp hbit with ⟨hg, htm⟩ | ⟨k, hk, hjk⟩
      · obtain ⟨p, hp, hi⟩ := (testBit_gather ..).mp hg
        obtain rfl := Option.some.inj (ht.symm.trans hp)
        refine Or.inl ⟨hi, fun hmem => ?_⟩
        obtain ⟨s, hs, hsb⟩ := List.mem_map.mp hmem
        exact htm (index_unique hd ht (hsb ▸ getElem?_getD (h s hs)) ▸ hs)
      · refine Or.inr ⟨k, ?_, hjk⟩
        rw [getElem?_locate, hk, Option.map_some, List.getD_eq_getElem?_getD, ht, Option.getD_some]
  · rintro (⟨hi, hb⟩ | ⟨k, hk, hjk⟩)
    · by_cases hbo : b ∈ outer
      · obtain ⟨t, ht⟩ := List.mem_iff_getElem?.mp hbo
        refine Or.inr ⟨t, ht, (testBit_patch ..).mpr (Or.inl ⟨?_, fun htm => hb ?_⟩)⟩
        · exact (testBit_gather ..).mpr ⟨b, ht, hi⟩
        · refine List.mem_map.mpr ⟨t, htm, ?_⟩
          rw [List.getD_eq_getElem?_getD, ht, Option.getD_some]
      · exact Or.inl ⟨hi, hbo⟩
    · rw [getElem?_locate, Option.map_eq_some_iff] at hk
      obtain ⟨t, ht, rfl⟩ := hk
      exact Or.inr ⟨t, getElem?_getD (h t (List.mem_of_getElem? ht)),
        (testBit_patch ..).mpr (Or.inr ⟨k, ht, hjk⟩)⟩

/-! ## Consecutive bits -/

/-- The positions `offset, ... offset + width - 1`. -/
def block (offset width : Nat) : List Nat := (List.range width).map (offset + ·)

theorem length_block (offset width : Nat) : (block offset width).length = width := by
  rw [block, List.length_map, List.length_range]

theorem nodup_block (offset width : Nat) : (block offset width).Nodup :=
  List.Nodup.map (fun _ _ h => Nat.add_left_cancel h) List.nodup_range

theorem getElem?_block {offset width j p : Nat} :
    (block offset width)[j]? = some p ↔ j < width ∧ p = offset + j := by
  rw [block, List.getElem?_map, Option.map_eq_some_iff]
  constructor
  · rintro ⟨k, hk, rfl⟩
    obtain ⟨hlt, rfl⟩ := List.getElem?_eq_some_iff.mp hk
    rw [List.length_range] at hlt
    rw [List.getElem_range]
    exact ⟨hlt, rfl⟩
  · rintro ⟨hj, rfl⟩
    exact ⟨j, by rw [List.getElem?_range hj], rfl⟩

theorem testBit_field (offset width i j : Nat) :
    (field offset width i).testBit j = true ↔ j < width ∧ i.testBit (offset + j) = true := by
  rw [field, Nat.pow_eq, Nat.testBit_mod_two_pow, Nat.testBit_shiftRight, Bool.and_eq_true,
    decide_eq_true_eq]

theorem field_eq_gather (offset width i : Nat) :
    field offset width i = gather (block offset width) i := by
  refine ext_bits fun j => ?_
  rw [testBit_field, testBit_gather]
  constructor
  · rintro ⟨hj, hi⟩
    exact ⟨_, getElem?_block.mpr ⟨hj, rfl⟩, hi⟩
  · rintro ⟨p, hp, hi⟩
    obtain ⟨hj, rfl⟩ := getElem?_block.mp hp
    exact ⟨hj, hi⟩

theorem mem_block {offset width p : Nat} :
    p ∈ block offset width ↔ offset ≤ p ∧ p < offset + width := by
  rw [block, List.mem_map]
  constructor
  · rintro ⟨j, hj, rfl⟩
    have := List.mem_range.mp hj
    omega
  · rintro ⟨hle, hlt⟩
    exact ⟨p - offset, List.mem_range.mpr (by omega), by omega⟩

theorem field_lt (offset width i : Nat) : field offset width i < 2 ^ width :=
  Nat.mod_lt _ (Nat.two_pow_pos _)

/-- A field reads nothing but its own bits. -/
theorem field_patch {positions : List Nat} {offset width : Nat}
    (h : ∀ p ∈ block offset width, p ∉ positions) (i j : Nat) :
    field offset width (patch positions i j) = field offset width i := by
  refine ext_bits fun k => ?_
  rw [testBit_field, testBit_field, testBit_patch]
  refine and_congr_right fun hk => ?_
  have hmem : offset + k ∈ block offset width := mem_block.mpr (by omega)
  constructor
  · rintro (⟨hi, -⟩ | ⟨l, hl, -⟩)
    · exact hi
    · exact absurd (List.mem_of_getElem? hl) (h _ hmem)
  · exact fun hi => Or.inl ⟨hi, h _ hmem⟩

/-- A field below `n` does not read the bits from `n` on. -/
theorem field_mod {offset width n : Nat} (h : offset + width ≤ n) (i : Nat) :
    field offset width (i % 2 ^ n) = field offset width i := by
  refine ext_bits fun k => ?_
  rw [testBit_field, testBit_field, Nat.testBit_mod_two_pow]
  refine and_congr_right fun hk => ?_
  have hlt : offset + k < n := by omega
  simp [hlt]

end OpenQasm.BitIndex
