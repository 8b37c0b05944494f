import Mathlib.NumberTheory.Zsqrtd.Basic
import OpenQasm.Proofs.Unitary

/-!
# The algebra of vectors and operators

Products, Kronecker products and lifts of matrices over any commutative ring with an involution for
the conjugation. `SquareMatrix.product` and `SquareMatrix.image` are what `mul` and `apply` answer,
entry by entry, when the sizes agree.

* `image_product`, `product_assoc`: products of operators act one after the other.
* `image_tensor`, `product_tensor`: a product of Kronecker products is taken factor by factor. The
  sum over a pair of indices, flattened to one, is a product of sums (`Kernel.sum_grid_mul`).
* `redimension_eq_ok`: a lift pads with the identity, then `reindex` permutes the bits of rows and
  columns. The first is a Kronecker product; the second renames the indices, since gathering at a
  permutation of the bits is a bijection of the indices (`BitIndex.sum_gather`).
* **`operatorAlgebra`**: the laws together, `OperatorAlgebra`.
-/

namespace OpenQasm

open BitIndex Kernel Finset

variable {A : Type}

/-! ## Permutations of the bits -/

namespace BitIndex

variable {positions : List Nat} {n i j : Nat}

/-- Bits put at positions that make up an index are the bits gathered from it. -/
theorem patch_zero_gather (h : positions.Perm (List.range n)) (hi : i < 2 ^ n) :
    patch positions 0 (gather positions i) = i := by
  have hclear : clear positions 0 = clear positions i := by
    refine ext_bits fun b => ?_
    rw [testBit_clear, testBit_clear, Nat.zero_testBit]
    refine iff_of_false (fun hb => Bool.false_ne_true hb.1) fun ⟨hb, hmem⟩ => hmem ?_
    exact h.mem_iff.mpr (List.mem_range.mpr (lt_of_testBit hi hb))
  rw [patch_congr hclear, patch_gather]

theorem gather_eq_iff (h : positions.Perm (List.range n)) (hi : i < 2 ^ n) (hj : j < 2 ^ n) :
    gather positions i = gather positions j ↔ i = j := by
  refine ⟨fun hij => ?_, fun hij => by rw [hij]⟩
  rw [← patch_zero_gather h hi, hij, patch_zero_gather h hj]

theorem gather_lt_of_perm (h : positions.Perm (List.range n)) (i : Nat) :
    gather positions i < 2 ^ n := by
  have hlt := gather_lt positions i
  rwa [h.length_eq, List.length_range] at hlt

/-- Summing over the gathered indices is summing over all of them. -/
theorem sum_gather [AddCommMonoid A] (h : positions.Perm (List.range n)) (f : Nat → A) :
    ∑ c ∈ range (2 ^ n), f (gather positions c) = ∑ x ∈ range (2 ^ n), f x := by
  have hd : positions.Nodup := h.nodup_iff.mpr List.nodup_range
  have hlt : ∀ p ∈ positions, p < n := fun p hp => List.mem_range.mp (h.mem_iff.mp hp)
  have hlen : positions.length = n := by rw [h.length_eq, List.length_range]
  refine sum_nbij' (gather positions) (patch positions 0) ?_ ?_ ?_ ?_ fun _ _ => rfl
  · exact fun c _ => mem_range.mpr (gather_lt_of_perm h c)
  · exact fun x _ => mem_range.mpr (patch_lt hlt (Nat.two_pow_pos n) x)
  · exact fun c hc => patch_zero_gather h (mem_range.mp hc)
  · exact fun x hx => gather_patch hd (hlen.symm ▸ mem_range.mp hx) 0

/-- A permutation of positions, looked up in another one, is a permutation. -/
theorem locate_perm {ps qs : List Nat} (hq : qs.Perm (List.range n))
    (hp : ps.Perm (List.range n)) : (locate qs ps).Perm (List.range n) := by
  have hqlen : qs.length = n := by rw [hq.length_eq, List.length_range]
  have hall : locate qs (List.range qs.length) = qs := by
    refine List.ext_getElem? fun k => ?_
    rw [getElem?_locate]
    rcases Nat.lt_or_ge k qs.length with hk | hk
    · rw [List.getElem?_range hk, Option.map_some, getElem?_getD hk]
    · rw [List.getElem?_eq_none (by rwa [List.length_range]), List.getElem?_eq_none hk]
      rfl
  have hmap : (locate qs ps).Perm (locate qs (List.range qs.length)) := by
    rw [hqlen]
    exact hp.map _
  rw [hall] at hmap
  exact hmap.trans hq

end BitIndex

namespace Kernel

/-- The row and the column of a cell of a grid. -/
theorem cell_bounds {t rows columns : Nat} (h : t < rows * columns) :
    t / columns < rows ∧ t % columns < columns :=
  ⟨Nat.div_lt_of_lt_mul (by rwa [Nat.mul_comm columns]),
    Nat.mod_lt _ (Nat.pos_of_mul_pos_left (Nat.zero_lt_of_lt h))⟩

/-- A sum over pairs of indices, flattened row by row, is a product of sums. -/
theorem sum_grid_mul [CommRing A] (rows columns : Nat) (f g : Nat → A) :
    ∑ t ∈ range (rows * columns), f (t / columns) * g (t % columns) =
      (∑ i ∈ range rows, f i) * ∑ j ∈ range columns, g j := by
  rw [sum_range_grid, sum_mul_sum]
  refine sum_congr rfl fun i _ => sum_congr rfl fun j hj => ?_
  rw [cell_div (mem_range.mp hj), cell_mod (mem_range.mp hj)]

end Kernel

/-! ## Vectors -/

namespace StateVector

/-- Vectors of one size are equal when their entries are. -/
theorem ext_get [Zero A] {v w : StateVector A} {d : Nat} (hv : v.size = d) (hw : w.size = d)
    (h : ∀ i, i < d → v.get i = w.get i) : v = w := by
  obtain ⟨xs⟩ := v
  obtain ⟨ys⟩ := w
  subst hv
  exact congrArg mk (ext_entries hw.symm h)

variable [CommRing A] {d e : Nat}

theorem size_tensor {v w : StateVector A} (hv : v.size = d) (hw : w.size = e) :
    (v.tensor w).size = d * e := by
  rw [← hv, ← hw]
  exact size_tabulate _ _

theorem get_tensor {v w : StateVector A} (hv : v.size = d) (hw : w.size = e) {i : Nat}
    (hi : i < d * e) : (v.tensor w).get i = v.get (i / e) * w.get (i % e) := by
  subst hv hw
  exact entry_tabulate _ hi

theorem tensor_assoc (u v w : StateVector A) :
    (u.tensor v).tensor w = u.tensor (v.tensor w) := by
  have huv : (u.tensor v).size = u.size * v.size := size_tensor rfl rfl
  have hvw : (v.tensor w).size = v.size * w.size := size_tensor rfl rfl
  refine ext_get (size_tensor huv rfl)
    ((size_tensor rfl hvw).trans (Nat.mul_assoc ..).symm) fun i hi => ?_
  have hi' : i < u.size * (v.size * w.size) := by rwa [← Nat.mul_assoc]
  rw [get_tensor huv rfl hi, get_tensor rfl rfl (cell_bounds hi).1, get_tensor rfl hvw hi',
    get_tensor rfl rfl (cell_bounds hi').2, Nat.div_div_eq_div_mul, Nat.mul_comm w.size,
    Nat.mod_mul_left_div_self, Nat.mod_mul_left_mod, mul_assoc]

end StateVector

namespace SquareMatrix

variable {m a b : SquareMatrix A} {d e i j : Nat}

/-- Matrices of one dimension are equal when their entries are. -/
theorem ext_get [Zero A] (ha : a.dim = d) (hb : b.dim = d)
    (h : ∀ i j, i < d → j < d → a.get i j = b.get i j) : a = b :=
  ext_toMatrix ha hb (funext fun i => funext fun j => h i j i.isLt j.isLt)

variable [CommRing A]

/-! ## Products -/

/-- The product of two matrices of one dimension. -/
def product (a b : SquareMatrix A) : SquareMatrix A :=
  ofFn a.dim fun i j => ∑ k ∈ range a.dim, a.get i k * b.get k j

/-- The product of a matrix and a vector of its dimension. -/
def image (m : SquareMatrix A) (v : StateVector A) : StateVector A :=
  ⟨tabulate m.dim fun i => ∑ k ∈ range m.dim, m.get i k * v.get k⟩

theorem dim_product (a b : SquareMatrix A) : (a.product b).dim = a.dim := rfl

theorem get_product (ha : a.dim = d) (b : SquareMatrix A) (hi : i < d) (hj : j < d) :
    (a.product b).get i j = ∑ k ∈ range d, a.get i k * b.get k j := by
  subst ha
  exact get_ofFn _ hi hj

theorem size_image (hm : m.dim = d) (v : StateVector A) : (m.image v).size = d :=
  (size_tabulate _ _).trans hm

theorem get_image (hm : m.dim = d) (v : StateVector A) (hi : i < d) :
    (m.image v).get i = ∑ k ∈ range d, m.get i k * v.get k := by
  subst hm
  exact entry_tabulate _ hi

theorem apply_eq_image {v : StateVector A} (h : v.size = m.dim) :
    m.apply v = .ok (m.image v) := by
  rw [apply_eq_ok m h]
  refine congrArg Except.ok (StateVector.ext_get (size_tabulate _ _) (size_image rfl v)
    fun i hi => ?_)
  rw [get_image rfl v hi]
  exact entry_matApply _ _ hi

theorem mul_eq_product [BEq A] [LawfulBEq A] (h : b.dim = a.dim) :
    a.mul b = .ok (a.product b) := by
  have hmul : ∃ product, a.mul b = .ok product := by
    unfold mul
    rw [if_pos h]
    exact ⟨_, rfl⟩
  obtain ⟨product, hmul⟩ := hmul
  obtain ⟨-, hdim, hget⟩ := get_of_mul_ok hmul
  rw [hmul]
  refine congrArg Except.ok (ext_get hdim rfl fun i j hi hj => ?_)
  rw [hget i j hi hj, get_product rfl b hi hj]

/-- A product acts as its right factor, then its left one. -/
theorem image_product (v : StateVector A) (h : b.dim = a.dim) :
    (a.product b).image v = a.image (b.image v) := by
  refine StateVector.ext_get (size_image rfl v) (size_image rfl _) fun i hi => ?_
  have hi : i < a.dim := hi
  rw [get_image (m := a.product b) rfl v hi, get_image rfl _ hi]
  calc ∑ k ∈ range a.dim, (a.product b).get i k * v.get k
      = ∑ k ∈ range a.dim, ∑ l ∈ range a.dim, a.get i l * (b.get l k * v.get k) := by
        refine sum_congr rfl fun k hk => ?_
        rw [get_product rfl b hi (mem_range.mp hk), sum_mul]
        exact sum_congr rfl fun l _ => mul_assoc _ _ _
    _ = ∑ l ∈ range a.dim, ∑ k ∈ range a.dim, a.get i l * (b.get l k * v.get k) := sum_comm
    _ = ∑ l ∈ range a.dim, a.get i l * (b.image v).get l := by
        refine sum_congr rfl fun l hl => ?_
        rw [get_image h v (mem_range.mp hl), mul_sum]

theorem toMatrix_product (ha : a.dim = d) (b : SquareMatrix A) :
    (a.product b).toMatrix d = a.toMatrix d * b.toMatrix d := by
  ext i j
  rw [toMatrix, get_product ha b i.isLt j.isLt, Matrix.mul_apply, Finset.sum_range]
  rfl

theorem product_assoc {c : SquareMatrix A} (h : b.dim = a.dim) :
    (a.product b).product c = a.product (b.product c) := by
  refine ext_toMatrix (d := a.dim) rfl rfl ?_
  rw [toMatrix_product (a := a.product b) (d := a.dim) rfl, toMatrix_product rfl,
    toMatrix_product rfl, toMatrix_product h, Matrix.mul_assoc]

/-! ## Kronecker products -/

section Tensor

variable [BEq A] [LawfulBEq A]

omit [LawfulBEq A] in
theorem dim_tensor (ha : a.dim = d) (hb : b.dim = e) : (a.tensor b).dim = d * e := by
  rw [← ha, ← hb]
  rfl

/-- An entry of a Kronecker product, with the dimensions of the factors by name. -/
theorem get_tensor_of_dim (ha : a.dim = d) (hb : b.dim = e) (hi : i < d * e) (hj : j < d * e) :
    (a.tensor b).get i j = a.get (i / e) (j / e) * b.get (i % e) (j % e) := by
  subst ha hb
  exact get_tensor a b hi hj

theorem tensor_assoc (a b c : SquareMatrix A) :
    (a.tensor b).tensor c = a.tensor (b.tensor c) := by
  refine ext_get rfl (Nat.mul_assoc ..).symm fun i j hi hj => ?_
  have hi : i < a.dim * b.dim * c.dim := hi
  have hj : j < a.dim * b.dim * c.dim := hj
  have hi' : i < a.dim * (b.dim * c.dim) := by rwa [← Nat.mul_assoc]
  have hj' : j < a.dim * (b.dim * c.dim) := by rwa [← Nat.mul_assoc]
  rw [get_tensor (a.tensor b) c hi hj, get_tensor a b (cell_bounds hi).1 (cell_bounds hj).1,
    get_tensor_of_dim rfl (dim_tensor rfl rfl) hi' hj',
    get_tensor b c (cell_bounds hi').2 (cell_bounds hj').2]
  simp only [Nat.div_div_eq_div_mul, Nat.mul_comm c.dim, Nat.mod_mul_left_div_self,
    Nat.mod_mul_left_mod, mul_assoc]

/-- Kronecker products act factor by factor. -/
theorem image_tensor {u v : StateVector A} (hu : u.size = a.dim) (hv : v.size = b.dim) :
    (a.tensor b).image (u.tensor v) = (a.image u).tensor (b.image v) := by
  refine StateVector.ext_get (size_image (dim_tensor rfl rfl) _)
    (StateVector.size_tensor (size_image rfl u) (size_image rfl v)) fun i hi => ?_
  obtain ⟨hrow, hcolumn⟩ := cell_bounds hi
  rw [get_image (dim_tensor rfl rfl) _ hi,
    StateVector.get_tensor (size_image rfl u) (size_image rfl v) hi, get_image rfl u hrow,
    get_image rfl v hcolumn, ← sum_grid_mul]
  refine sum_congr rfl fun k hk => ?_
  have hk := mem_range.mp hk
  rw [get_tensor a b hi hk, StateVector.get_tensor hu hv hk]
  ring

/-- Kronecker products multiply factor by factor. -/
theorem product_tensor {c d : SquareMatrix A} (hc : c.dim = a.dim) (hd : d.dim = b.dim) :
    (a.tensor b).product (c.tensor d) = (a.product c).tensor (b.product d) := by
  refine ext_get (dim_tensor rfl rfl) (dim_tensor rfl rfl) fun i j hi hj => ?_
  obtain ⟨hirow, hicolumn⟩ := cell_bounds hi
  obtain ⟨hjrow, hjcolumn⟩ := cell_bounds hj
  rw [get_product (dim_tensor rfl rfl) _ hi hj,
    get_tensor_of_dim (dim_product a c) (dim_product b d) hi hj, get_product rfl c hirow hjrow,
    get_product rfl d hicolumn hjcolumn, ← sum_grid_mul]
  refine sum_congr rfl fun k hk => ?_
  have hk := mem_range.mp hk
  rw [get_tensor a b hi hk, get_tensor_of_dim hc hd hk hj]
  ring

omit [BEq A] [LawfulBEq A] in
theorem dim_identity (d : Nat) : (identity d : SquareMatrix A).dim = d := rfl

theorem identity_tensor_identity (d e : Nat) :
    (identity d : SquareMatrix A).tensor (identity e) = identity (d * e) := by
  refine ext_get (d := d * e) rfl rfl fun i j hi hj => ?_
  obtain ⟨hirow, hicolumn⟩ := cell_bounds hi
  obtain ⟨hjrow, hjcolumn⟩ := cell_bounds hj
  have hsplit : i = j ↔ i / e = j / e ∧ i % e = j % e := by
    refine ⟨fun h => by rw [h]; exact ⟨rfl, rfl⟩, fun ⟨hhigh, hlow⟩ => ?_⟩
    rw [← Nat.div_add_mod i e, hhigh, hlow, Nat.div_add_mod]
  rw [get_tensor_of_dim (dim_identity d) (dim_identity e) hi hj, get_identity hi hj,
    get_identity hirow hjrow, get_identity hicolumn hjcolumn, ite_zero_mul_ite_zero, mul_one]
  exact if_congr hsplit.symm rfl rfl

omit [BEq A] [LawfulBEq A] in
theorem identity_product_identity (d : Nat) :
    (identity d : SquareMatrix A).product (identity d) = identity d := by
  refine ext_toMatrix (d := d) rfl rfl ?_
  rw [toMatrix_product (d := d) rfl, toMatrix_identity, mul_one]

end Tensor

/-! ## Adjoints -/

section Adjoint

variable [StarRing A]

theorem dim_adjoint (m : SquareMatrix A) : (m.adjoint star).dim = m.dim := rfl

theorem get_adjoint (hm : m.dim = d) (hi : i < d) (hj : j < d) :
    (m.adjoint star).get i j = star (m.get j i) := by
  subst hm
  exact get_ofFn _ hi hj

theorem adjoint_identity (d : Nat) :
    (identity d : SquareMatrix A).adjoint star = identity d := by
  refine ext_get (d := d) rfl rfl fun i j hi hj => ?_
  rw [get_adjoint rfl hi hj, get_identity hj hi, get_identity hi hj]
  simp only [apply_ite star, star_one, star_zero, eq_comm]

theorem adjoint_tensor [BEq A] [LawfulBEq A] (a b : SquareMatrix A) :
    (a.tensor b).adjoint star = (a.adjoint star).tensor (b.adjoint star) := by
  refine ext_get (d := a.dim * b.dim) rfl rfl fun i j hi hj => ?_
  obtain ⟨hirow, hicolumn⟩ := cell_bounds hi
  obtain ⟨hjrow, hjcolumn⟩ := cell_bounds hj
  rw [get_adjoint (m := a.tensor b) rfl hi hj, get_tensor a b hj hi,
    get_tensor_of_dim (dim_adjoint a) (dim_adjoint b) hi hj,
    get_adjoint rfl hirow hjrow, get_adjoint rfl hicolumn hjcolumn, star_mul, mul_comm]

end Adjoint

/-! ## Lifts -/

/-- The matrix with the bits of its row and column indices renamed. -/
def reindex (m : SquareMatrix A) (positions : List Nat) : SquareMatrix A :=
  ofFn m.dim fun i j => m.get (gather positions i) (gather positions j)

section Reindex

variable {positions : List Nat} {n : Nat}

theorem get_reindex (hm : m.dim = 2 ^ n) (hi : i < 2 ^ n) (hj : j < 2 ^ n) :
    (m.reindex positions).get i j = m.get (gather positions i) (gather positions j) := by
  rw [← hm] at hi hj
  exact get_ofFn _ hi hj

theorem reindex_product (h : positions.Perm (List.range n)) (ha : a.dim = 2 ^ n)
    (hb : b.dim = 2 ^ n) :
    (a.product b).reindex positions = (a.reindex positions).product (b.reindex positions) := by
  refine ext_get (d := 2 ^ n) ha ha fun i j hi hj => ?_
  have hlt := gather_lt_of_perm h
  rw [get_reindex (m := a.product b) ha hi hj, get_product ha b (hlt i) (hlt j),
    get_product (a := a.reindex positions) ha _ hi hj,
    ← sum_gather h fun k => a.get (gather positions i) k * b.get k (gather positions j)]
  refine sum_congr rfl fun k hk => ?_
  rw [get_reindex ha hi (mem_range.mp hk), get_reindex hb (mem_range.mp hk) hj]

theorem reindex_identity (h : positions.Perm (List.range n)) :
    (identity (2 ^ n) : SquareMatrix A).reindex positions = identity (2 ^ n) := by
  refine ext_get (d := 2 ^ n) rfl rfl fun i j hi hj => ?_
  rw [get_reindex rfl hi hj, get_identity (gather_lt_of_perm h i) (gather_lt_of_perm h j),
    get_identity hi hj]
  exact if_congr (gather_eq_iff h hi hj) rfl rfl

theorem reindex_adjoint [StarRing A] (h : positions.Perm (List.range n)) (hm : m.dim = 2 ^ n) :
    (m.adjoint star).reindex positions = (m.reindex positions).adjoint star := by
  refine ext_get (d := 2 ^ n) hm hm fun i j hi hj => ?_
  have hlt := gather_lt_of_perm h
  rw [get_reindex (m := m.adjoint star) hm hi hj, get_adjoint hm (hlt i) (hlt j),
    get_adjoint (m := m.reindex positions) hm hi hj, get_reindex hm hj hi]

/-- Renaming the bits twice is renaming them once, by the composed permutation. -/
theorem reindex_reindex {after : List Nat} (hp : positions.Perm (List.range n))
    (hq : after.Perm (List.range n)) (hm : m.dim = 2 ^ n) :
    (m.reindex positions).reindex after = m.reindex (locate after positions) := by
  have hinside : ∀ t ∈ positions, t < after.length := fun t ht => by
    rw [hq.length_eq, List.length_range]
    exact List.mem_range.mp (hp.mem_iff.mp ht)
  have hlt := gather_lt_of_perm hq
  refine ext_get (d := 2 ^ n) hm hm fun i j hi hj => ?_
  rw [get_reindex hm hi hj, get_reindex (m := m.reindex positions) hm hi hj,
    get_reindex hm (hlt i) (hlt j), gather_gather hinside, gather_gather hinside]

end Reindex

section Redimension

variable [BEq A] [LawfulBEq A] {positions : List Nat} {n k : Nat}

/-- The matrix on `k` qubits, padded with the identity on the bits from `k` to `n`. -/
def padded (m : SquareMatrix A) (n k : Nat) : SquareMatrix A :=
  (identity (2 ^ (n - k))).tensor m

omit [LawfulBEq A] in
theorem dim_padded (hk : k ≤ n) (hm : m.dim = 2 ^ k) : (m.padded n k).dim = 2 ^ n := by
  rw [padded, dim_tensor rfl hm]
  exact Nat.pow_sub_mul_pow 2 hk

/-- **A lift pads and renames**: its answer, for a permutation of the bits. -/
theorem redimension_eq_ok (h : positions.Perm (List.range n)) (hk : k ≤ n)
    (hm : m.dim = 2 ^ k) : m.redimension positions = .ok ((m.padded n k).reindex positions) := by
  have hlen : positions.length = n := by rw [h.length_eq, List.length_range]
  have hpad : 2 ^ n / m.dim = 2 ^ (n - k) := by rw [hm, Nat.pow_div hk (by decide)]
  have hsmall : ¬(m.qubits?.isNone = true ∨ 2 ^ n < m.dim) := by
    have hq : m.qubits? = some k := exactLog2?_eq_some_iff.mpr hm
    rw [hq, hm, not_or]
    exact ⟨Bool.false_ne_true, Nat.not_lt.mpr (Nat.pow_le_pow_right (by decide) hk)⟩
  unfold redimension
  simp only [hlen, Nat.pow_eq]
  rw [if_neg hsmall, if_pos (isPermutation_of_perm h), reindex, dim_padded hk hm]
  refine congrArg Except.ok (ofFn_congr fun i j hi hj => ?_)
  have horigin : ∀ {c}, c < 2 ^ n →
      (tabulate (2 ^ n) (gather positions)).getD c 0 = gather positions c :=
    fun hc => entry_tabulate _ hc
  rw [ite_beq_zero, horigin hi, horigin hj, hpad, padded]

/-- An operator on all the bits is not padded. -/
theorem padded_self (m : SquareMatrix A) (n : Nat) : m.padded n n = m := by
  rw [padded, Nat.sub_self, Nat.pow_zero]
  refine ext_get (d := m.dim) ((dim_tensor rfl rfl).trans (Nat.one_mul _)) rfl
    fun i j hi hj => ?_
  rw [get_tensor_of_dim (d := 1) rfl rfl (by rwa [Nat.one_mul]) (by rwa [Nat.one_mul]),
    Nat.div_eq_of_lt hi, Nat.div_eq_of_lt hj, Nat.mod_eq_of_lt hi, Nat.mod_eq_of_lt hj,
    get_identity Nat.one_pos Nat.one_pos, if_pos rfl, one_mul]

theorem padded_product (hb : b.dim = a.dim) :
    (a.product b).padded n k = (a.padded n k).product (b.padded n k) := by
  unfold padded
  rw [product_tensor rfl hb, identity_product_identity]

theorem padded_identity (hk : k ≤ n) :
    (identity (2 ^ k) : SquareMatrix A).padded n k = identity (2 ^ n) := by
  rw [padded, identity_tensor_identity, Nat.pow_sub_mul_pow 2 hk]

theorem padded_adjoint [StarRing A] (m : SquareMatrix A) :
    (m.adjoint star).padded n k = (m.padded n k).adjoint star := by
  unfold padded
  rw [adjoint_tensor, adjoint_identity]

end Redimension

end SquareMatrix

/-! ## The laws -/

/-- What vectors and square matrices over a commutative ring with a conjugation obey. Operations
that can fail do not, and both sides are one value. -/
structure OperatorAlgebra (A : Type) [CommRing A] [StarRing A] [BEq A] : Prop where
  /-- A product of operators acts as the right one, then the left one. -/
  apply_mul (a b : SquareMatrix A) (v : StateVector A) :
    b.dim = a.dim → v.size = a.dim →
    ∃ ab bv w, a.mul b = .ok ab ∧ b.apply v = .ok bv ∧ ab.apply v = .ok w ∧ a.apply bv = .ok w
  mul_assoc (a b c : SquareMatrix A) :
    b.dim = a.dim → c.dim = a.dim →
    ∃ ab bc abc, a.mul b = .ok ab ∧ b.mul c = .ok bc ∧ ab.mul c = .ok abc ∧ a.mul bc = .ok abc
  /-- A Kronecker product acts factor by factor. -/
  apply_tensor (a b : SquareMatrix A) (u v : StateVector A) :
    u.size = a.dim → v.size = b.dim →
    ∃ au bv, a.apply u = .ok au ∧ b.apply v = .ok bv ∧
      (a.tensor b).apply (u.tensor v) = .ok (au.tensor bv)
  /-- Kronecker products multiply factor by factor. -/
  mul_tensor (a b c d : SquareMatrix A) :
    c.dim = a.dim → d.dim = b.dim →
    ∃ ac bd, a.mul c = .ok ac ∧ b.mul d = .ok bd ∧
      (a.tensor b).mul (c.tensor d) = .ok (ac.tensor bd)
  tensor_assoc (a b c : SquareMatrix A) : (a.tensor b).tensor c = a.tensor (b.tensor c)
  vector_tensor_assoc (u v w : StateVector A) : (u.tensor v).tensor w = u.tensor (v.tensor w)
  redimension_mul (n k : Nat) (positions : List Nat) (a b : SquareMatrix A) :
    positions.Perm (List.range n) → k ≤ n → a.dim = 2 ^ k → b.dim = 2 ^ k →
    ∃ ab a' b' ab', a.mul b = .ok ab ∧ a.redimension positions = .ok a' ∧
      b.redimension positions = .ok b' ∧ ab.redimension positions = .ok ab' ∧ a'.mul b' = .ok ab'
  redimension_identity (n k : Nat) (positions : List Nat) :
    positions.Perm (List.range n) → k ≤ n →
    (SquareMatrix.identity (2 ^ k) : SquareMatrix A).redimension positions =
      .ok (.identity (2 ^ n))
  redimension_adjoint (n k : Nat) (positions : List Nat) (a : SquareMatrix A) :
    positions.Perm (List.range n) → k ≤ n → a.dim = 2 ^ k →
    ∃ a', a.redimension positions = .ok a' ∧
      (a.adjoint star).redimension positions = .ok (a'.adjoint star)
  /-- Two lifts are one: bit `i` goes to `q[p[i]]`. -/
  redimension_redimension (n k : Nat) (p q : List Nat) (a : SquareMatrix A) :
    p.Perm (List.range n) → q.Perm (List.range n) → k ≤ n → a.dim = 2 ^ k →
    ∃ a' a'', a.redimension p = .ok a' ∧ a'.redimension q = .ok a'' ∧
      a.redimension (p.map (q.getD · 0)) = .ok a''

open SquareMatrix in
/-- **The operations on vectors and operators are those of an algebra**, over any commutative ring
of amplitudes with a conjugation. Dimensions are numbers of any size. They are words for all
operators that there is room for, on up to `SquareMatrix.maxQubits` qubits
(`Guarded.room_two_pow_iff`). -/
theorem operatorAlgebra (A : Type) [CommRing A] [StarRing A] [BEq A] [LawfulBEq A] :
    OperatorAlgebra A where
  apply_mul a b v hb hv := by
    refine ⟨a.product b, b.image v, a.image (b.image v), mul_eq_product hb,
      apply_eq_image (hv.trans hb.symm), ?_, apply_eq_image (size_image hb v)⟩
    rw [← image_product v hb]
    exact apply_eq_image hv
  mul_assoc a b c hb hc := by
    refine ⟨a.product b, b.product c, a.product (b.product c), mul_eq_product hb,
      mul_eq_product (hc.trans hb.symm), ?_, mul_eq_product hb⟩
    rw [← product_assoc hb]
    exact mul_eq_product hc
  apply_tensor a b u v hu hv := by
    refine ⟨a.image u, b.image v, apply_eq_image hu, apply_eq_image hv, ?_⟩
    rw [← image_tensor hu hv]
    exact apply_eq_image (StateVector.size_tensor hu hv)
  mul_tensor a b c d hc hd := by
    refine ⟨a.product c, b.product d, mul_eq_product hc, mul_eq_product hd, ?_⟩
    rw [← product_tensor hc hd]
    exact mul_eq_product (dim_tensor hc hd)
  tensor_assoc := SquareMatrix.tensor_assoc
  vector_tensor_assoc := StateVector.tensor_assoc
  redimension_mul n k positions a b h hk ha hb := by
    have hab : b.dim = a.dim := hb.trans ha.symm
    refine ⟨a.product b, _, _, (a.padded n k).reindex positions |>.product
      ((b.padded n k).reindex positions), mul_eq_product hab, redimension_eq_ok h hk ha,
      redimension_eq_ok h hk hb, ?_, ?_⟩
    · rw [redimension_eq_ok h hk (m := a.product b) ha, padded_product hab,
        reindex_product h (dim_padded hk ha) (dim_padded hk hb)]
    · exact mul_eq_product ((dim_padded hk hb).trans (dim_padded hk ha).symm)
  redimension_identity n k positions h hk := by
    rw [redimension_eq_ok h hk rfl, padded_identity hk, reindex_identity h]
  redimension_adjoint n k positions a h hk ha := by
    refine ⟨_, redimension_eq_ok h hk ha, ?_⟩
    rw [redimension_eq_ok h hk (m := a.adjoint star) ha, padded_adjoint,
      reindex_adjoint h (dim_padded hk ha)]
  redimension_redimension n k p q a hp hq hk ha := by
    have hlift : ((a.padded n k).reindex p).dim = 2 ^ n := dim_padded hk ha
    refine ⟨_, _, redimension_eq_ok hp hk ha, redimension_eq_ok hq (Nat.le_refl n) hlift, ?_⟩
    rw [padded_self, reindex_reindex hp hq (dim_padded hk ha)]
    exact redimension_eq_ok (locate_perm hq hp) hk ha

/-- Two operators on one bit with complex integer entries, lifted to bit `1` of two: the lift of
the product, of the adjoint, and a lift to three bits turned twice. -/
theorem operatorAlgebra_complex_integers :
    let x : SquareMatrix (Zsqrtd (-1)) := ⟨2, #[1, ⟨0, 1⟩, 0, 2], rfl⟩
    let y : SquareMatrix (Zsqrtd (-1)) := ⟨2, #[⟨0, 1⟩, 1, 1, 0], rfl⟩
    (∃ xy x' y' xy', x.mul y = .ok xy ∧ x.redimension [1, 0] = .ok x' ∧
        y.redimension [1, 0] = .ok y' ∧ xy.redimension [1, 0] = .ok xy' ∧ x'.mul y' = .ok xy') ∧
      (∃ x', x.redimension [1, 0] = .ok x' ∧
        (x.adjoint star).redimension [1, 0] = .ok (x'.adjoint star) ∧
        x'.entries = #[1, 0, ⟨0, 1⟩, 0, 0, 1, 0, ⟨0, 1⟩, 0, 0, 2, 0, 0, 0, 0, 2]) ∧
      ∃ x' x'', x.redimension [1, 2, 0] = .ok x' ∧ x'.redimension [1, 2, 0] = .ok x'' ∧
        x.redimension [2, 0, 1] = .ok x'' := by
  intro x y
  have laws := operatorAlgebra (Zsqrtd (-1))
  obtain ⟨x', hx, hadjoint⟩ := laws.redimension_adjoint 2 1 [1, 0] x (by decide) (by decide) rfl
  have hentries : (x.redimension [1, 0]).toOption.map (·.entries) =
      some #[1, 0, ⟨0, 1⟩, 0, 0, 1, 0, ⟨0, 1⟩, 0, 0, 2, 0, 0, 0, 0, 2] := by decide +kernel
  rw [hx] at hentries
  exact ⟨laws.redimension_mul 2 1 [1, 0] x y (by decide) (by decide) rfl rfl,
    ⟨x', hx, hadjoint, Option.some.inj hentries⟩,
    laws.redimension_redimension 3 1 [1, 2, 0] [1, 2, 0] x (by decide) (by decide) (by decide) rfl⟩

end OpenQasm
