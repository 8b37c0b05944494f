import OpenQasm.Linear.Words
import OpenQasm.Proofs.Fallible
import OpenQasm.Proofs.Kernel
import OpenQasm.Proofs.Projection

/-!
# Kernels that no guard stops

A guarded step whose condition holds answers what the step without a guard answers; a loop over such
steps is then a fold or a map over the steps without guards. So each guarded kernel is found to be
the kernel it stands for, under a condition on its arguments: bits below 64, positions that are bits
of the index of the vector, a register that lies inside of it.

* `permuteBits_eq`, `collectBits_eq`, `maskOf_eq`: the loops over bits are `spread`, `gather` and
  `mask`.
* **`applyOnTargets_eq`**: the guarded kernel is the kernel when all that it reads lies inside the
  matrix and the vector, and only then is it not stopped (`inside_of_applyOnTargets`).
* **`measure_eq`**, **`reset_eq`**: so is a measurement or a projection of bits within the vector.
-/

namespace OpenQasm.Guarded

open BitIndex Kernel

variable {ε δ α β : Type}

/-! ## Computations without guards -/

/-- A step that succeeds is followed by the next. -/
theorem bind_of_eq_ok {x : Guarded ε α} {a : α} (h : x = .ok a) (f : α → Guarded ε β) :
    (x >>= f) = f a := by
  rw [h]
  rfl

/-- Two computations that agree, step by step. -/
theorem bind_congr {x : Guarded ε α} {y : Except ε α} {f : α → Guarded ε β}
    {g : α → Except ε β} (hx : x = ofExcept y) (hf : ∀ a, y = .ok a → f a = ofExcept (g a)) :
    (x >>= f) = ofExcept (y >>= g) := by
  rw [hx]
  cases hy : y with
  | error e => rfl
  | ok a => exact hf a hy

theorem require_eq {condition : Prop} [Decidable condition] (h : condition) (hazard : Hazard) :
    (require condition hazard : Guarded ε Unit) = .ok () := if_pos h

theorem of_require {condition : Prop} [Decidable condition] {hazard : Hazard}
    (h : (require condition hazard : Guarded ε Unit) = .ok ()) : condition := by
  unfold require at h
  by_cases hc : condition
  · exact hc
  · rw [if_neg hc] at h
    cases h

/-! ## Loops -/

/-- A loop whose steps succeed is a fold, as long as each step keeps what the next relies on. -/
theorem foldlM_eq (good : β → Prop) {f : β → α → Guarded ε β} {g : β → α → β} :
    ∀ {xs : List α} {b : β}, good b →
      (∀ b, good b → ∀ a ∈ xs, f b a = .ok (g b a) ∧ good (g b a)) →
      xs.foldlM f b = .ok (xs.foldl g b)
  | [], _, _, _ => rfl
  | a :: rest, b, hb, hstep => by
    obtain ⟨hfirst, hgood⟩ := hstep b hb a List.mem_cons_self
    rw [List.foldlM_cons, bind_of_eq_ok hfirst]
    exact foldlM_eq good hgood fun c hc x hx => hstep c hc x (List.mem_cons_of_mem a hx)

theorem foldlM_eq_of_forall {f : β → α → Guarded ε β} {g : β → α → β} {xs : List α}
    (h : ∀ a ∈ xs, ∀ b, f b a = .ok (g b a)) (b : β) : xs.foldlM f b = .ok (xs.foldl g b) :=
  foldlM_eq (fun _ => True) trivial fun c _ a ha => ⟨h a ha c, trivial⟩

/-- A loop that is not stopped takes each of its steps. -/
theorem exists_step {f : β → α → Guarded ε β} : ∀ {xs : List α} {b c : β},
    xs.foldlM f b = .ok c → ∀ a ∈ xs, ∃ before after, f before a = .ok after
  | [], _, _, _, _, ha => absurd ha List.not_mem_nil
  | x :: rest, b, c, h, a, ha => by
    rw [List.foldlM_cons] at h
    obtain ⟨next, hfirst, hrest⟩ := bind_eq_ok.mp h
    rcases List.mem_cons.mp ha with rfl | ha
    · exact ⟨b, next, hfirst⟩
    · exact exists_step hrest a ha

theorem mapM_eq {f : α → Guarded ε β} {g : α → β} : ∀ {xs : List α},
    (∀ a ∈ xs, f a = .ok (g a)) → xs.mapM f = .ok (xs.map g)
  | [], _ => rfl
  | a :: rest, h => by
    obtain ⟨ha, hrest⟩ := List.forall_mem_cons.mp h
    rw [List.mapM_cons, bind_of_eq_ok ha, bind_of_eq_ok (mapM_eq hrest)]
    rfl

theorem tabulate_eq {n : Nat} {f : Nat → Guarded ε α} {g : Nat → α}
    (h : ∀ i < n, f i = .ok (g i)) : Guarded.tabulate n f = .ok (Kernel.tabulate n g) := by
  have hlist : (List.range n).mapM f = .ok ((List.range n).map g) :=
    mapM_eq fun i hi => h i (List.mem_range.mp hi)
  have harray : ((List.range n).map g).toArray = Kernel.tabulate n g := by
    refine Array.ext (by simp [size_tabulate]) fun i hi _ => ?_
    simp [Kernel.tabulate]
  rw [Guarded.tabulate, bind_of_eq_ok hlist, harray]
  rfl

theorem exists_entry {n : Nat} {f : Nat → Guarded ε α} {xs : Array α}
    (h : Guarded.tabulate n f = .ok xs) {i : Nat} (hi : i < n) : ∃ x, f i = .ok x := by
  obtain ⟨entries, hentries, -⟩ := bind_eq_ok.mp h
  exact exists_mapM_eq_ok.mp ⟨entries, hentries⟩ i (List.mem_range.mpr hi)

/-! ## Steps on words -/

theorem word_eq {n : Nat} (h : n < 2 ^ 64) : (word n : Guarded ε Nat) = .ok n :=
  bind_of_eq_ok (require_eq h _) _

theorem add_eq {a b : Nat} (h : a + b < 2 ^ 64) : (add a b : Guarded ε Nat) = .ok (a + b) :=
  word_eq h

theorem mul_eq {a b : Nat} (h : a * b < 2 ^ 64) : (mul a b : Guarded ε Nat) = .ok (a * b) :=
  word_eq h

theorem sub_eq {a b : Nat} (h : b ≤ a) : (sub a b : Guarded ε Nat) = .ok (a - b) :=
  bind_of_eq_ok (require_eq h _) _

theorem shiftRight_eq (a : Nat) {amount : Nat} (h : amount < 64) :
    (shiftRight a amount : Guarded ε Nat) = .ok (a >>> amount) :=
  bind_of_eq_ok (require_eq h _) _

theorem shiftLeft_eq {a n amount : Nat} (ha : a < 2 ^ n) (hamount : amount < 64)
    (h : amount + n ≤ 64) : (shiftLeft a amount : Guarded ε Nat) = .ok (a <<< amount) := by
  have hlt : a <<< amount < 2 ^ 64 := by
    rw [Nat.shiftLeft_eq]
    calc a * 2 ^ amount < 2 ^ n * 2 ^ amount :=
          Nat.mul_lt_mul_of_pos_right ha (Nat.two_pow_pos amount)
      _ = 2 ^ (amount + n) := by rw [← Nat.pow_add, Nat.add_comm]
      _ ≤ 2 ^ 64 := Nat.pow_le_pow_right Nat.zero_lt_two h
  rw [shiftLeft, bind_of_eq_ok (require_eq hamount _), word_eq hlt]

/-- A single bit, moved to any place of a word. -/
theorem shiftLeft_bit {a amount : Nat} (ha : a < 2) (h : amount < 64) :
    (shiftLeft a amount : Guarded ε Nat) = .ok (a <<< amount) :=
  shiftLeft_eq (n := 1) ha h h

theorem shiftLeft_one {amount : Nat} (h : amount < 64) :
    (shiftLeft 1 amount : Guarded ε Nat) = .ok (2 ^ amount) := by
  rw [shiftLeft_bit Nat.one_lt_two h, Nat.one_shiftLeft]

theorem of_shiftLeft {a amount b : Nat} (h : (shiftLeft a amount : Guarded ε Nat) = .ok b) :
    amount < 64 := by
  obtain ⟨⟨⟩, hamount, -⟩ := bind_eq_ok.mp h
  exact of_require hamount

example : (shiftLeft 1 64 : Guarded RunFault Nat) = .error (.hazard (.shift 64)) := rfl

theorem inside_eq {i size : Nat} (h : i < size) : (inside i size : Guarded ε Unit) = .ok () :=
  require_eq h _

theorem read_eq [Zero α] {xs : Array α} {i : Nat} (h : i < xs.size) :
    (read xs i : Guarded ε α) = .ok (entry xs i) := by
  rw [read, dif_pos h, entry, Array.getD_eq_getD_getElem?, Array.getElem?_eq_getElem h,
    Option.getD_some]

theorem of_read {xs : Array α} {i : Nat} {x : α} (h : (read xs i : Guarded ε α) = .ok x) :
    i < xs.size := by
  unfold read at h
  by_cases hi : i < xs.size
  · exact hi
  · rw [dif_neg hi] at h
    cases h

theorem slice_eq {xs : Array α} {first last : Nat} (h : first ≤ last) (hlast : last ≤ xs.size) :
    (slice xs first last : Guarded ε (List α)) = .ok (xs.extract first last).toList :=
  bind_of_eq_ok (require_eq ⟨h, hlast⟩ _) _

theorem of_slice {xs : Array α} {first last : Nat} {entries : List α}
    (h : (slice xs first last : Guarded ε (List α)) = .ok entries) : last ≤ xs.size := by
  obtain ⟨⟨⟩, hinside, -⟩ := bind_eq_ok.mp h
  exact (of_require hinside).2

/-! ## Loops over bits -/

/-- A gathered index, as its first bit and the others moved up. -/
theorem gather_cons (p : Nat) (ps : List Nat) (i : Nat) :
    gather (p :: ps) i = (i >>> p &&& 1) ||| gather ps i <<< 1 := by
  have hbit : i >>> p &&& 1 = (i.testBit p).toNat := by
    rw [Nat.and_one_is_mod, Nat.toNat_testBit, Nat.shiftRight_eq_div_pow]
  have hlt : (i.testBit p).toNat < 2 ^ 1 := Bool.toNat_lt _
  rw [gather, hbit, Nat.or_comm, ← Nat.shiftLeft_add_eq_or_of_lt hlt, Nat.shiftLeft_eq,
    Nat.pow_one, Nat.mul_comm, Nat.add_comm]

theorem foldl_gather (index : Nat) : ∀ (positions : List Nat) (k row : Nat),
    (positions.zipIdx k).foldl (fun row x => row ||| (index >>> x.1 &&& 1) <<< x.2) row =
      row ||| gather positions index <<< k
  | [], k, row => by rw [gather, Nat.zero_shiftLeft, Nat.or_zero]; rfl
  | p :: ps, k, row => by
    rw [List.zipIdx_cons, List.foldl_cons, foldl_gather index ps, gather_cons,
      Nat.shiftLeft_or_distrib, ← Nat.shiftLeft_add, Nat.add_comm 1, Nat.or_assoc]

theorem foldl_spread (index : Nat) : ∀ (positions : List Nat) (k moved : Nat),
    (positions.zipIdx k).foldl
      (fun moved x => if index >>> x.2 &&& 1 = 1 then moved ||| 2 ^ x.1 else moved) moved =
      moved ||| spread positions (index >>> k)
  | [], k, moved => by rw [spread, Nat.or_zero]; rfl
  | p :: ps, k, moved => by
    rw [List.zipIdx_cons, List.foldl_cons, foldl_spread index ps, spread, Nat.shiftRight_succ,
      Nat.and_one_is_mod, Nat.testBit_zero, Nat.one_shiftLeft]
    by_cases hbit : index >>> k % 2 = 1 <;> simp [hbit, Nat.or_assoc]

/-- Positions in a word, each of which is moved to or from a place in a word. -/
structure InWord (positions : List Nat) : Prop where
  length : positions.length < 64
  lt : ∀ p ∈ positions, p < 64

variable {positions : List Nat}

theorem InWord.lt_of_mem_zipIdx (h : InWord positions) {p bit : Nat}
    (hmem : (p, bit) ∈ positions.zipIdx) : p < 64 ∧ bit < 64 := by
  obtain ⟨hbit, hp⟩ := List.mem_zipIdx' hmem
  exact ⟨h.lt p (hp ▸ List.getElem_mem hbit), hbit.trans h.length⟩

/-- Bits are spread one at a time. -/
theorem permuteBits_eq (h : InWord positions) (index : Nat) :
    (permuteBits index positions : Guarded ε Nat) = .ok (spread positions index) := by
  have hloop : (permuteBits index positions : Guarded ε Nat) = .ok (positions.zipIdx.foldl
      (fun moved x => if index >>> x.2 &&& 1 = 1 then moved ||| 2 ^ x.1 else moved) 0) := by
    refine foldlM_eq_of_forall ?_ 0
    rintro ⟨p, bit⟩ hmem moved
    obtain ⟨hp, hbit⟩ := h.lt_of_mem_zipIdx hmem
    dsimp only
    rw [bind_of_eq_ok (shiftRight_eq index hbit), bind_of_eq_ok (shiftLeft_one hp)]
    split <;> rfl
  rw [hloop, foldl_spread, Nat.zero_or, Nat.shiftRight_zero]

/-- Bits are gathered one at a time. -/
theorem collectBits_eq (h : InWord positions) (index : Nat) :
    (collectBits index positions : Guarded ε Nat) = .ok (gather positions index) := by
  have hloop : (collectBits index positions : Guarded ε Nat) = .ok (positions.zipIdx.foldl
      (fun row x => row ||| (index >>> x.1 &&& 1) <<< x.2) 0) := by
    refine foldlM_eq_of_forall ?_ 0
    rintro ⟨p, bit⟩ hmem row
    obtain ⟨hp, hbit⟩ := h.lt_of_mem_zipIdx hmem
    have hlow : index >>> p &&& 1 < 2 := Nat.and_lt_two_pow (n := 1) _ Nat.one_lt_two
    dsimp only
    rw [bind_of_eq_ok (shiftRight_eq index hp), bind_of_eq_ok (shiftLeft_bit hlow hbit)]
    rfl
  rw [hloop, foldl_gather, Nat.zero_or, Nat.shiftLeft_zero]

theorem maskOf_eq (h : ∀ p ∈ positions, p < 64) :
    (maskOf positions : Guarded ε Nat) = .ok (mask positions) := by
  refine foldlM_eq_of_forall (fun p hp m => ?_) 0
  rw [bind_of_eq_ok (shiftLeft_bit Nat.one_lt_two (h p hp))]
  rfl

/-! ## An operator on some of the bits -/

/-- A loop over the numbers below `n`, in the two ways it is written. -/
theorem foldl_range (f : β → Nat → β) (b : β) (n : Nat) :
    (List.range n).foldl f b = n.fold (fun i _ acc => f acc i) b := by
  induction n with
  | zero => rfl
  | succ n ih => rw [List.range_succ, List.foldl_append, ih, Nat.fold_succ]; rfl

theorem sumTo_eq [Zero α] [Add α] {f : α → Nat → Guarded ε α} {g : Nat → α} {n : Nat}
    (h : ∀ j < n, ∀ sum, f sum j = .ok (sum + g j)) :
    (List.range n).foldlM f 0 = .ok (sumTo n g) := by
  rw [foldlM_eq_of_forall (fun j hj => h j (List.mem_range.mp hj)), foldl_range]
  rfl

/-- A row of a matrix that is stored row by row. -/
theorem row_eq [Zero α] {matrix : Array α} {row dim : Nat}
    (h : (row + 1) * dim ≤ matrix.size) :
    (slice matrix (row * dim) ((row + 1) * dim) : Guarded ε (List α)) =
      .ok ((List.range dim).map fun j => entry matrix (row * dim + j)) := by
  have hlast : (row + 1) * dim = row * dim + dim := Nat.succ_mul row dim
  have hle : row * dim ≤ (row + 1) * dim := hlast ▸ Nat.le_add_right _ _
  rw [slice_eq hle h]
  congr 1
  refine List.ext_getElem (by simp; omega) fun j hj hj' => ?_
  have hjd : j < dim := by simpa using hj'
  have hin : row * dim + j < matrix.size := by omega
  simp [entry, hin]

/-- All that an operator reads lies inside: the row of each index is one of the matrix, and an index
that is put together from its bits elsewhere and spread bits is one of the vector. -/
structure Inside (vector matrix : Array α) (targets : List Nat) : Prop where
  word : InWord targets
  row : ∀ i < vector.size, (gather targets i + 1) * 2 ^ targets.length ≤ matrix.size
  entry : ∀ i < vector.size, ∀ j < 2 ^ targets.length,
    without (mask targets) i ||| spread targets j < vector.size

section Operator

variable [Zero α] [Add α] [Mul α] {vector matrix : Array α} {targets : List Nat}

theorem spreads_eq (h : InWord targets) :
    (List.range (2 ^ targets.length)).mapM (fun j => permuteBits j targets) =
      (.ok ((List.range (2 ^ targets.length)).map (spread targets)) : Guarded ε (List Nat)) :=
  mapM_eq fun j _ => permuteBits_eq h j

/-- **No guard stops an operator that reads inside.** -/
theorem applyOnTargets_eq (h : Inside vector matrix targets) :
    (Guarded.applyOnTargets vector matrix targets : Guarded ε (Array α)) =
      .ok (Kernel.applyOnTargets vector matrix targets) := by
  rw [Guarded.applyOnTargets, bind_of_eq_ok (shiftLeft_one h.word.length),
    bind_of_eq_ok (maskOf_eq h.word.lt), bind_of_eq_ok (spreads_eq h.word),
    applyOnTargets_eq_tabulate]
  refine tabulate_eq fun i hi => ?_
  dsimp only
  rw [bind_of_eq_ok (collectBits_eq h.word i), bind_of_eq_ok (row_eq (h.row i hi)), List.zip_map',
    List.foldlM_map]
  exact sumTo_eq fun j hj sum => bind_of_eq_ok (read_eq (h.entry i hi j hj)) _

/-- **Only an operator that reads inside is not stopped.** -/
theorem inside_of_applyOnTargets {out : Array α}
    (h : (Guarded.applyOnTargets vector matrix targets : Guarded ε (Array α)) = .ok out) :
    Inside vector matrix targets := by
  obtain ⟨dim, hdim, h⟩ := bind_eq_ok.mp h
  obtain ⟨m, hmask, h⟩ := bind_eq_ok.mp h
  have hword : InWord targets := by
    refine ⟨of_shiftLeft hdim, fun p hp => ?_⟩
    obtain ⟨before, after, hstep⟩ := exists_step hmask p hp
    obtain ⟨bit, hbit, -⟩ := bind_eq_ok.mp hstep
    exact of_shiftLeft hbit
  rw [shiftLeft_one hword.length] at hdim
  rw [maskOf_eq hword.lt] at hmask
  obtain rfl := Except.ok.inj hdim
  obtain rfl := Except.ok.inj hmask
  rw [bind_of_eq_ok (spreads_eq hword)] at h
  have hrows (i : Nat) (hi : i < vector.size) :
      (gather targets i + 1) * 2 ^ targets.length ≤ matrix.size ∧
        ∀ j < 2 ^ targets.length, without (mask targets) i ||| spread targets j < vector.size := by
    obtain ⟨sum, hsum⟩ := exists_entry h hi
    dsimp only at hsum
    rw [bind_of_eq_ok (collectBits_eq hword i)] at hsum
    obtain ⟨entries, hslice, hsum⟩ := bind_eq_ok.mp hsum
    have hrow := of_slice hslice
    rw [row_eq hrow] at hslice
    obtain rfl := Except.ok.inj hslice
    rw [List.zip_map', List.foldlM_map] at hsum
    refine ⟨hrow, fun j hj => ?_⟩
    obtain ⟨before, after, hstep⟩ := exists_step hsum j (List.mem_range.mpr hj)
    obtain ⟨x, hread, -⟩ := bind_eq_ok.mp hstep
    exact of_read hread
  exact ⟨hword, fun i hi => (hrows i hi).1, fun i hi => (hrows i hi).2⟩

/-- A target that is no bit of the index is stopped at the first amplitude. -/
example : (Guarded.applyOnTargets #[1, 0] #[0, 1, 1, 0] [1] : Guarded RunFault (Array Nat)) =
    .error (.hazard (.index 2 2)) := rfl

end Operator

/-! ## Building a state -/

theorem zeroState_eq [Zero α] [One α] (width : Nat) :
    (Guarded.zeroState width : Guarded AlgebraError (StateVector α)) =
      ofExcept (StateVector.zeroState width) := by
  unfold Guarded.zeroState StateVector.zeroState
  by_cases hwide : StateVector.maxQubits < width
  · rw [if_pos hwide, if_pos hwide]
    rfl
  · have hword : width < 64 := by
      rw [StateVector.maxQubits] at hwide
      omega
    rw [if_neg hwide, if_neg hwide, bind_of_eq_ok (shiftLeft_one hword),
      bind_of_eq_ok (inside_eq (Nat.two_pow_pos width))]
    rfl

theorem tensor_eq [Zero α] [Mul α] {v w : StateVector α} (h : v.size * w.size < 2 ^ 64) :
    (Guarded.tensor v w : Guarded ε (StateVector α)) = .ok (v.tensor w) :=
  bind_of_eq_ok (mul_eq h) _

/-! ## Reading a register -/

theorem registerMask_eq {width : Nat} (h : width < 64) :
    (registerMask width : Guarded ε Nat) = .ok (2 ^ width - 1) := by
  rw [registerMask, bind_of_eq_ok (shiftLeft_one h), sub_eq (Nat.two_pow_pos width)]

theorem masked_eq {offset : Nat} (h : offset < 64) (width i : Nat) :
    (masked offset (2 ^ width - 1) i : Guarded ε Nat) = .ok (field offset width i) := by
  rw [masked, bind_of_eq_ok (shiftRight_eq i h), Nat.and_two_pow_sub_one_eq_mod]
  rfl

/-- A mask that is moved to a register finds it clear when its bits are all zero. -/
theorem and_shiftLeft_eq_zero {offset width i : Nat} :
    i &&& (2 ^ width - 1) <<< offset = 0 ↔ field offset width i = 0 := by
  have hmoved : i &&& (2 ^ width - 1) <<< offset = field offset width i <<< offset := by
    refine ext_bits fun b => ?_
    rw [Nat.testBit_and, Nat.testBit_shiftLeft, Nat.testBit_shiftLeft, Nat.testBit_two_pow_sub_one,
      Bool.and_eq_true, Bool.and_eq_true, Bool.and_eq_true, testBit_field]
    simp only [decide_eq_true_eq]
    constructor
    · rintro ⟨hi, hle, hlt⟩
      exact ⟨hle, hlt, by rwa [Nat.add_sub_cancel' hle]⟩
    · rintro ⟨hle, hlt, hi⟩
      exact ⟨by rwa [Nat.add_sub_cancel' hle] at hi, hle, hlt⟩
  rw [hmoved, Nat.shiftLeft_eq_zero_iff]

theorem outcomeBits_eq {width : Nat} (h : width < 64) (outcome : Nat) :
    (outcomeBits width outcome : Guarded ε (List Bool)) = .ok (bits width outcome) := by
  refine mapM_eq fun bit hbit => ?_
  have hlt : bit < 64 := (List.mem_range.mp hbit).trans h
  have hlow : (outcome >>> bit &&& 1 == 1) = outcome.testBit bit := by
    rw [Nat.testBit_eq_decide_div_mod_eq, Nat.and_one_is_mod, Nat.shiftRight_eq_div_pow]
    rfl
  rw [bind_of_eq_ok (shiftRight_eq outcome hlt), hlow]
  rfl

/-- A vector of `n` qubits, no more than a machine can have, and a register inside of it. -/
structure Within (v : StateVector α) (n offset width : Nat) : Prop where
  size : v.size = 2 ^ n
  qubits : n < 64
  last : offset + width ≤ n

namespace Within

variable {R : Type} [Scalar R] {v : StateVector (Amplitude R)} {n offset width : Nat}

omit [Scalar R] in
theorem checkRange_eq (h : Within v n offset width) :
    (Guarded.checkRange v offset width : Guarded ε Unit) = .ok () := by
  have hqubits : v.qubits = n := by
    rw [StateVector.qubits, trailingZeros, h.size, halvings_two_pow h.qubits]
  have hlast := h.last
  have hword : offset + width < 2 ^ 64 := by
    have := h.qubits
    omega
  rw [Guarded.checkRange, bind_of_eq_ok (add_eq hword), require_eq (hqubits ▸ h.last)]

example : (Guarded.checkRange (⟨#[1, 0]⟩ : StateVector Nat) 1 1 : Guarded RunFault Unit) =
    .error (.hazard (.range 1 1 1)) := rfl

omit [Scalar R] in
theorem offset_lt (h : Within v n offset width) : offset < 64 :=
  (Nat.le_of_add_right_le h.last).trans_lt h.qubits

omit [Scalar R] in
theorem width_lt (h : Within v n offset width) : width < 64 :=
  (Nat.le_of_add_left_le h.last).trans_lt h.qubits

/-- A cell of the masses is found for each entry. -/
theorem outcomeMasses_eq (h : Within v n offset width) :
    (Guarded.outcomeMasses v offset width : Guarded ε (Array R)) =
      .ok (v.outcomeMasses offset width) := by
  rw [Guarded.outcomeMasses, bind_of_eq_ok (registerMask_eq h.width_lt),
    bind_of_eq_ok (shiftLeft_one h.width_lt),
    foldlM_eq (fun masses : Array R => masses.size = 2 ^ width)
      (g := fun masses i => masses.modify (field offset width i) (· + (v.get i).mass))
      Array.size_replicate, foldl_range]
  · rfl
  · intro masses hsize i _
    have hfield : field offset width i < masses.size := hsize ▸ field_lt offset width i
    rw [bind_of_eq_ok (masked_eq h.offset_lt width i), bind_of_eq_ok (inside_eq hfield),
      Array.size_modify]
    exact ⟨rfl, hsize⟩

theorem collapse_eq (h : Within v n offset width) (outcome : Nat) (norm : R) :
    (Guarded.collapse v offset width outcome norm : Guarded ε (StateVector (Amplitude R))) =
      .ok (v.collapse offset width outcome norm) := by
  have hentry (i : Nat) : (do
        let found ← masked offset (2 ^ width - 1) i
        return (if found = outcome then v.get i else 0).divBy norm : Guarded ε (Amplitude R)) =
      .ok ((if field offset width i = outcome then v.get i else 0).divBy norm) :=
    bind_of_eq_ok (masked_eq h.offset_lt width i) _
  rw [Guarded.collapse, bind_of_eq_ok (registerMask_eq h.width_lt),
    bind_of_eq_ok (tabulate_eq fun i _ => hentry i)]
  rfl

/-- **All that a measurement reads lies inside**, and the outcome is one of the register. -/
theorem measure_eq (h : Within v n offset width) (u : R) :
    Guarded.measure v offset width u = ofExcept ((v.measure offset width u).map fun measured =>
      (bits width measured.outcome, measured.after)) := by
  rw [Guarded.measure, StateVector.measure_eq h.size h.qubits, if_neg (Nat.not_lt.mpr h.last),
    bind_of_eq_ok h.checkRange_eq, bind_of_eq_ok h.outcomeMasses_eq]
  cases hselect : StateVector.selectOutcome (v.outcomeMasses offset width).toList u with
  | error e => rfl
  | ok outcome =>
    have hlt : outcome < 2 ^ width :=
      (StateVector.solid_computed.mp (StateVector.solid_of_selectOutcome hselect)).1
    have hread : (read (v.outcomeMasses offset width) outcome : Guarded AlgebraError R) =
        .ok ((v.outcomeMasses offset width).getD outcome 0) :=
      read_eq (StateVector.size_outcomeMasses v offset width ▸ hlt)
    have hselected : (ofExcept (.ok outcome) : Guarded AlgebraError Nat) = .ok outcome := rfl
    rw [bind_of_eq_ok hselected, bind_of_eq_ok hread, bind_of_eq_ok (h.collapse_eq outcome _),
      bind_of_eq_ok (outcomeBits_eq h.width_lt outcome)]
    rfl

/-- **All that a projection reads lies inside.** -/
theorem reset_eq (h : Within v n offset width) :
    Guarded.reset v offset width = ofExcept (v.reset offset width) := by
  have hmask : (shiftLeft (2 ^ width - 1) offset : Guarded AlgebraError Nat) =
      .ok ((2 ^ width - 1) <<< offset) :=
    shiftLeft_eq (Nat.sub_one_lt (Nat.two_pow_pos width).ne') h.offset_lt
      (h.last.trans h.qubits.le)
  rw [Guarded.reset, StateVector.reset, StateVector.checkRange_eq h.size h.qubits,
    if_neg (Nat.not_lt.mpr h.last), bind_of_eq_ok h.checkRange_eq,
    bind_of_eq_ok (registerMask_eq h.width_lt), bind_of_eq_ok hmask]
  simp only [and_shiftLeft_eq_zero]
  show (if v.clearMass offset width < Scalar.zeroMass then _ else _) =
    ofExcept (if v.clearMass offset width < Scalar.zeroMass then _ else _)
  split <;> rfl

end Within

end OpenQasm.Guarded
