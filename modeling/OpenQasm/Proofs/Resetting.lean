import OpenQasm.Proofs.Atomic
import OpenQasm.Proofs.Projection

/-!
# Resetting is the zero branch of measuring

A reset projects some bits onto zero. Which entries these are is found with a mask that is shifted
to the bits, while a measurement shifts the index and reads the low bits, but both keep the entries
that read zero there. A reset needs no draw, and does what a measurement does that finds zero. It
leaves a vector of mass one all of whose entries read zero, so that resetting the bits again, or
some of them, changes nothing.

* `BitIndex.land_mask_shiftLeft_eq_zero`: the mask and the bits that it stands for.
* `reset_eq`: how a reset ends and what it leaves.
* `reset_of_measure_zero`, `measure_zero_of_reset`: the branch of a measurement that finds zero.
* `Carries.reset_eq_self`: bits that are known to be zero.
* **`StateVector.reset_is_zero_branch`**: all of it together.
-/

namespace OpenQasm

open BitIndex Kernel Finset

namespace BitIndex

variable {offset width i : Nat}

/-- An index has no bit in common with a shifted mask where it reads zero in its bits. -/
theorem land_mask_shiftLeft_eq_zero :
    i &&& ((2 ^ width - 1) <<< offset) = 0 ↔ Reads offset width 0 i := by
  constructor
  · intro h j hj
    have hbit : (i &&& ((2 ^ width - 1) <<< offset)).testBit (offset + j) = false := by
      rw [h, Nat.zero_testBit]
    simpa [Nat.testBit_shiftLeft, Nat.testBit_two_pow_sub_one, hj] using hbit
  · intro h
    refine ext_bits fun b => ⟨fun hb => ?_, fun hb => absurd hb (by simp)⟩
    simp only [Nat.testBit_and, Nat.testBit_shiftLeft, Nat.testBit_two_pow_sub_one,
      Bool.and_eq_true, decide_eq_true_eq] at hb
    obtain ⟨hi, hoffset, hwidth⟩ := hb
    have hzero := h (b - offset) hwidth
    rw [Nat.add_sub_cancel' hoffset, hi, Nat.zero_testBit] at hzero
    cases hzero

/-- A shifted index has no low bit where it reads zero in its bits. -/
theorem shiftRight_land_mask_eq_zero :
    (i >>> offset) &&& (2 ^ width - 1) = 0 ↔ Reads offset width 0 i := by
  rw [Nat.and_two_pow_sub_one_eq_mod, ← field_eq_iff_reads (Nat.two_pow_pos width)]
  exact Iff.rfl

/-- What reads zero in some bits reads zero in each part of them. -/
theorem Reads.sub {offset' width' : Nat} (h : Reads offset width 0 i) (hlow : offset ≤ offset')
    (hhigh : offset' + width' ≤ offset + width) : Reads offset' width' 0 i := by
  intro j hj
  have hbit := h (offset' - offset + j) (by omega)
  rw [← Nat.add_assoc, Nat.add_sub_cancel' hlow, Nat.zero_testBit] at hbit
  rw [hbit, Nat.zero_testBit]

end BitIndex

theorem Amplitude.mass_nonneg {R : Type} [RealScalar R] (a : Amplitude R) : 0 ≤ a.mass :=
  add_nonneg (mul_self_nonneg _) (mul_self_nonneg _)

namespace StateVector

/-! ## How a reset ends -/

section Real

variable {R : Type} [RealScalar R] {v w : StateVector (Amplitude R)} {n offset width : Nat}

/-- The mass of the entries that read zero in some bits. -/
theorem clearMass_eq_sum (v : StateVector (Amplitude R)) (offset width : Nat) :
    v.clearMass offset width =
      ∑ i ∈ range v.size, if Reads offset width 0 i then (v.get i).mass else 0 := by
  rw [clearMass_eq, fieldMass]
  refine sum_congr rfl fun i _ => ?_
  simp only [field_eq_iff_reads (Nat.two_pow_pos width)]

/-- **A reset** checks the bits, then the mass that it would keep, and then keeps it. -/
theorem reset_eq (hv : v.size = 2 ^ n) (hn : n < 64) : v.reset offset width =
    if n < offset + width then .error (.outOfRange offset width n)
    else if v.clearMass offset width < Scalar.zeroMass then .error .zeroProbability
    else .ok (v.collapse offset width 0 (Scalar.sqrt (v.clearMass offset width))) := by
  rw [reset, checkRange_eq hv hn]
  split <;> rfl

theorem reset_eq_ok (hv : v.size = 2 ^ n) (hn : n < 64) : v.reset offset width = .ok w ↔
    offset + width ≤ n ∧ Scalar.zeroMass ≤ v.clearMass offset width ∧
      w = v.collapse offset width 0 (Scalar.sqrt (v.clearMass offset width)) := by
  rw [reset_eq hv hn]
  by_cases hout : n < offset + width
  · rw [if_pos hout]
    exact ⟨nofun, fun h => absurd h.1 (Nat.not_le.mpr hout)⟩
  rw [if_neg hout]
  by_cases hfaint : v.clearMass offset width < Scalar.zeroMass
  · rw [if_pos hfaint]
    exact ⟨nofun, fun h => absurd h.2.1 (not_le.mpr hfaint)⟩
  · rw [if_neg hfaint]
    exact ⟨fun h => ⟨Nat.not_lt.mp hout, not_lt.mp hfaint, (Except.ok.inj h).symm⟩,
      fun h => h.2.2 ▸ rfl⟩

theorem reset_eq_error (hv : v.size = 2 ^ n) (hn : n < 64) {e : AlgebraError} :
    v.reset offset width = .error e ↔
      (n < offset + width ∧ e = .outOfRange offset width n) ∨
        (offset + width ≤ n ∧ v.clearMass offset width < Scalar.zeroMass ∧
          e = .zeroProbability) := by
  rw [reset_eq hv hn]
  by_cases hout : n < offset + width
  · rw [if_pos hout, Except.error.injEq, eq_comm]
    exact ⟨fun h => Or.inl ⟨hout, h⟩, fun h => h.elim And.right fun h => absurd h.1 (by omega)⟩
  rw [if_neg hout]
  by_cases hfaint : v.clearMass offset width < Scalar.zeroMass
  · rw [if_pos hfaint, Except.error.injEq, eq_comm]
    exact ⟨fun h => Or.inr ⟨Nat.not_lt.mp hout, hfaint, h⟩,
      fun h => h.elim (fun h => absurd h.1 hout) fun h => h.2.2⟩
  · rw [if_neg hfaint]
    exact ⟨nofun, fun h => h.elim (fun h => absurd h.1 hout) fun h => absurd h.2.1 hfaint⟩

/-- The entries that a reset leaves. -/
theorem get_of_reset (hv : v.size = 2 ^ n) (hn : n < 64) (h : v.reset offset width = .ok w)
    {i : Nat} (hi : i < v.size) :
    w.get i = if Reads offset width 0 i
      then (v.get i).divBy (Scalar.sqrt (v.clearMass offset width)) else 0 := by
  obtain ⟨-, -, rfl⟩ := (reset_eq_ok hv hn).mp h
  simp only [get_collapse hi, field_eq_iff_reads (Nat.two_pow_pos width)]

/-- What a reset leaves reads zero. -/
theorem carries_of_reset (h : v.reset offset width = .ok w) : w.Carries offset width 0 := by
  obtain ⟨-, -, h⟩ := bind_eq_ok.mp h
  dsimp only at h
  split at h
  · cases h
  · obtain rfl := Except.ok.inj h
    exact carries_collapse _

theorem size_of_reset (hv : v.size = 2 ^ n) (hn : n < 64) (h : v.reset offset width = .ok w) :
    w.size = v.size := by
  obtain ⟨-, -, rfl⟩ := (reset_eq_ok hv hn).mp h
  exact Machine.size_collapse ..

/-! ## The zero branch -/

/-- **A measurement that finds zero** leaves what a reset leaves, whatever was drawn. -/
theorem reset_of_measure_zero (hv : v.size = 2 ^ n) (hn : n < 64) {u : R}
    (h : v.measure offset width u = .ok ⟨0, w⟩) : v.reset offset width = .ok w := by
  have hrange : offset + width ≤ n := by
    by_contra hout
    rw [measure_eq hv hn, if_pos (Nat.not_le.mp hout)] at h
    cases h
  obtain ⟨-, hsolid, rfl⟩ := of_measure_ok h
  rw [← clearMass_eq] at hsolid ⊢
  exact (reset_eq_ok hv hn).mpr ⟨hrange, hsolid, rfl⟩

/-- The least draw selects the first outcome wherever that has some mass. -/
theorem selectOutcome_zero {m : R} {masses : List R} (hm : Scalar.zeroMass ≤ m)
    (htotal : Scalar.zeroMass ≤ (m :: masses).foldl (· + ·) 0) :
    selectOutcome (m :: masses) 0 = .ok 0 := by
  have hpos := RealScalar.zeroMass_pos.trans_le hm
  have hsolid : Solid (m :: masses) 0 := ⟨m, rfl, hm⟩
  have hfirst : firstAbove? (0 * (m :: masses).foldl (· + ·) 0) (m :: masses) 0 0 = some 0 := by
    rw [firstAbove?, zero_mul, zero_add, if_pos ⟨hm, hpos⟩]
  unfold selectOutcome
  dsimp only
  rw [if_neg (not_lt.mpr htotal), hfirst]
  cases hlast : lastSolid? (m :: masses) with
  | none => exact absurd hlast (lastSolid_ne_none hsolid)
  | some last => rfl

/-- **Where a reset succeeds**, the least draw finds zero. -/
theorem measure_zero_of_reset (hv : v.size = 2 ^ n) (hn : n < 64)
    (h : v.reset offset width = .ok w) : v.measure offset width 0 = .ok ⟨0, w⟩ := by
  obtain ⟨hrange, hkept, rfl⟩ := (reset_eq_ok hv hn).mp h
  rw [clearMass_eq] at hkept ⊢
  have hmass : v.fieldMass offset width 0 ≤ v.mass := by
    rw [mass_eq_sum]
    refine sum_le_sum fun i _ => ?_
    split
    · exact le_refl _
    · exact Amplitude.mass_nonneg _
  obtain ⟨others, hmasses⟩ : ∃ others, (v.outcomeMasses offset width).toList =
      v.fieldMass offset width 0 :: others := by
    obtain ⟨more, hmore⟩ := Nat.exists_eq_succ_of_ne_zero (Nat.two_pow_pos width).ne'
    rw [toList_outcomeMasses, hmore, List.range_succ_eq_map, List.map_cons]
    exact ⟨_, rfl⟩
  have hselect : selectOutcome (v.outcomeMasses offset width).toList 0 = .ok 0 := by
    have htotal := foldl_outcomeMasses v offset width
    rw [hmasses] at htotal ⊢
    exact selectOutcome_zero hkept (htotal ▸ hkept.trans hmass)
  have hnorm : (v.outcomeMasses offset width).getD 0 0 = v.fieldMass offset width 0 :=
    getD_outcomeMasses v (Nat.two_pow_pos width)
  rw [measure_eq hv hn, if_neg (Nat.not_lt.mpr hrange), hselect]
  show Except.ok (Measured.mk 0 (v.collapse offset width 0 _)) = _
  rw [hnorm]

end Real

/-! ## Resetting again -/

variable {R : Type} [RootScalar R] {v w : StateVector (Amplitude R)} {n offset width : Nat}

theorem Carries.sub (h : v.Carries offset width 0) {offset' width' : Nat} (hlow : offset ≤ offset')
    (hhigh : offset' + width' ≤ offset + width) : v.Carries offset' width' 0 := fun i hi =>
  (field_eq_iff_reads (Nat.two_pow_pos width')).mpr
    (((field_eq_iff_reads (Nat.two_pow_pos width)).mp (h i hi)).sub hlow hhigh)

/-- **Bits that are known to be zero are reset without a change.** -/
theorem Carries.reset_eq_self (h : v.Carries offset width 0) (hmass : v.mass = 1)
    (hv : v.size = 2 ^ n) (hn : n < 64) (hrange : offset + width ≤ n) :
    v.reset offset width = .ok v := by
  have hkept : v.clearMass offset width = 1 := by rw [clearMass_eq, h.fieldMass_eq, hmass]
  refine (reset_eq_ok hv hn).mpr ⟨hrange, ?_, ?_⟩
  · rw [hkept]
    exact RootScalar.zeroMass_le_one
  · rw [hkept, sqrt_one, h.collapse_one]

/-- **Resetting is the zero branch of measuring.** In exact arithmetic, and in a vector of `2 ^ n`
entries, `n` less than the width of a word: the entries whose indices read zero in some bits are
those that a shifted mask picks, and those of which a shifted index has no low bit. A reset of the
bits fails with `outOfRange` exactly where they are not bits of the index, and with
`zeroProbability` exactly where they are and the entries that read zero have too little mass. A
procedure that resets the vector of a machine in place then leaves the machine as it was. In every
other case a reset leaves zero in the place of the entries that do not read zero, and the others
divided by the root of their mass, which makes a vector of mass one. Whatever a measurement of the
bits leaves with a draw for which it finds zero is what a reset leaves, and where a reset succeeds
there is such a draw. To reset the bits or a part of them again succeeds and changes nothing. -/
theorem reset_is_zero_branch (hv : v.size = 2 ^ n) (hn : n < 64) (offset width : Nat) :
    let kept := ∑ i ∈ range v.size, if Reads offset width 0 i then (v.get i).mass else 0
    (∀ i, (i &&& ((2 ^ width - 1) <<< offset) = 0 ↔ Reads offset width 0 i) ∧
      ((i >>> offset) &&& (2 ^ width - 1) = 0 ↔ Reads offset width 0 i)) ∧
    (v.reset offset width = .error (.outOfRange offset width n) ↔ n < offset + width) ∧
    (v.reset offset width = .error .zeroProbability ↔
      offset + width ≤ n ∧ kept < Scalar.zeroMass) ∧
    (∀ e, v.reset offset width = .error e → ∀ m : Machine R, m.vector = v →
      Procedure.projectBits offset width m = .error (.algebra e) m) ∧
    (offset + width ≤ n → Scalar.zeroMass ≤ kept → ∃ w, v.reset offset width = .ok w) ∧
    (∀ u after, v.measure offset width u = .ok ⟨0, after⟩ → v.reset offset width = .ok after) ∧
    ∀ w, v.reset offset width = .ok w →
      (∀ m : Machine R, m.vector = v →
        Procedure.projectBits offset width m = .ok () { m with vector := w }) ∧
      w.size = v.size ∧
      (∀ i < v.size, w.get i =
        if Reads offset width 0 i then (v.get i).divBy (Scalar.sqrt kept) else 0) ∧
      w.mass = 1 ∧
      v.measure offset width 0 = .ok ⟨0, w⟩ ∧
      ∀ offset' width', offset ≤ offset' → offset' + width' ≤ offset + width →
        w.reset offset' width' = .ok w := by
  intro kept
  have hkept : v.clearMass offset width = kept := v.clearMass_eq_sum offset width
  refine ⟨fun i => ⟨land_mask_shiftLeft_eq_zero, shiftRight_land_mask_eq_zero⟩, ?_, ?_, ?_,
    ?_, fun u after => reset_of_measure_zero hv hn, ?_⟩
  · rw [reset_eq_error hv hn]
    simp
  · rw [reset_eq_error hv hn, hkept]
    simp
  · rintro e he m rfl
    rw [Procedure.projectBits_settles, he]
    rfl
  · intro hrange hsolid
    exact ⟨_, (reset_eq_ok hv hn).mpr ⟨hrange, hkept ▸ hsolid, rfl⟩⟩
  · intro w hw
    refine ⟨?_, size_of_reset hv hn hw, fun i hi => hkept ▸ get_of_reset hv hn hw hi,
      mass_of_reset hw, measure_zero_of_reset hv hn hw, fun offset' width' hlow hhigh => ?_⟩
    · rintro m rfl
      rw [Procedure.projectBits_settles, hw]
      rfl
    · obtain ⟨hrange, -⟩ := (reset_eq_ok hv hn).mp hw
      exact ((carries_of_reset hw).sub hlow hhigh).reset_eq_self (mass_of_reset hw)
        ((size_of_reset hv hn hw).trans hv) hn (hhigh.trans hrange)

/-- A qubit in both of its states, not scaled to mass one. -/
noncomputable def evenQubit : StateVector (Amplitude ℝ) := ⟨#[1, 1]⟩

/-- It is reset to zero, as a measurement that finds zero does it, and stays so. There is no second
qubit to reset. -/
theorem reset_is_zero_branch_evenQubit :
    evenQubit.reset 1 1 = .error (.outOfRange 1 1 1) ∧
      ∃ w, evenQubit.reset 0 1 = .ok w ∧ w.mass = 1 ∧ evenQubit.measure 0 1 0 = .ok ⟨0, w⟩ ∧
        w.reset 0 1 = .ok w := by
  have hsize : evenQubit.size = 2 ^ 1 := rfl
  have hkept : ∑ i ∈ range evenQubit.size,
      (if Reads 0 1 0 i then (evenQubit.get i).mass else 0) = 1 := by
    have hzero : evenQubit.get 0 = 1 := rfl
    rw [hsize, Nat.pow_one, sum_range_succ, sum_range_one, if_pos (by decide), if_neg (by decide),
      hzero, Amplitude.mass_one, add_zero]
  obtain ⟨-, hout, -⟩ := reset_is_zero_branch hsize (by decide) 1 1
  obtain ⟨-, -, -, -, hexists, -, hreset⟩ := reset_is_zero_branch hsize (by decide) 0 1
  obtain ⟨w, hw⟩ := hexists (by decide) (hkept ▸ RootScalar.zeroMass_le_one)
  obtain ⟨-, -, -, hmass, hmeasure, hagain⟩ := hreset w hw
  exact ⟨hout.mpr (by decide), w, hw, hmass, hmeasure, hagain 0 1 (le_refl 0) (le_refl _)⟩

end StateVector

end OpenQasm
