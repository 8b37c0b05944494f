import Mathlib.MeasureTheory.Measure.Lebesgue.Basic
import OpenQasm.Proofs.Projection

/-!
# Which draws select an outcome

A measurement scales a uniform draw by the mass of all outcomes and takes the first outcome that is
not faint and whose running total exceeds it, or the last one that is not faint. Faint outcomes are
passed over, but their masses are part of the running totals.

The outcomes that are not faint are listed by `solids`. In exact arithmetic their running totals
(`through`) increase, so that the draws which select one of them are an interval, from the running
total of the one before to its own (`Draws`).

* `firstAbove?_eq`, `lastSolid?_eq`: the search, as a search in the list of solid outcomes.
* `getD_find?_eq_iff`: a search in an increasing list, with the last item in place of none.
* **`born_rule`**: the intervals, that they are a partition, and their lengths.
* `volume_measure`: what this says of the measurement of a state vector.
-/

namespace OpenQasm.StateVector

open MeasureTheory

/-! ## The outcomes that are not faint -/

section Computed

variable {R : Type} [Scalar R]

instance (masses : List R) (k : Nat) : Decidable (Solid masses k) :=
  match h : masses[k]? with
  | none => .isFalse fun ⟨_, hm, _⟩ => nomatch h.symm.trans hm
  | some m => decidable_of_iff (Scalar.zeroMass ≤ m)
      ⟨fun hm => ⟨m, h, hm⟩, fun ⟨_, hm, hsolid⟩ => Option.some.inj (h.symm.trans hm) ▸ hsolid⟩

/-- The outcomes whose masses are not faint, in ascending order. -/
def solids (masses : List R) : List Nat :=
  (List.range masses.length).filter fun k => Solid masses k

theorem Solid.lt_length {masses : List R} {k : Nat} (h : Solid masses k) : k < masses.length := by
  obtain ⟨m, hm, -⟩ := h
  exact (List.getElem?_eq_some_iff.mp hm).1

theorem mem_solids {masses : List R} {k : Nat} : k ∈ solids masses ↔ Solid masses k := by
  rw [solids, List.mem_filter, List.mem_range, decide_eq_true_iff]
  exact and_iff_right_of_imp Solid.lt_length

theorem solids_sortedLT (masses : List R) : (solids masses).SortedLT :=
  (List.pairwise_lt_range.filter _).sortedLT

theorem solid_cons_zero {m : R} {ms : List R} : Solid (m :: ms) 0 ↔ Scalar.zeroMass ≤ m :=
  ⟨fun ⟨_, hm, h⟩ => Option.some.inj hm ▸ h, fun h => ⟨m, rfl, h⟩⟩

theorem solids_cons (m : R) (ms : List R) : solids (m :: ms) =
    (if Scalar.zeroMass ≤ m then [0] else []) ++ (solids ms).map Nat.succ := by
  have htail : ((List.range ms.length).map Nat.succ).filter (fun k => Solid (m :: ms) k) =
      (solids ms).map Nat.succ := List.filter_map
  rw [solids, List.length_cons, List.range_succ_eq_map, List.filter_cons, htail]
  by_cases hm : Scalar.zeroMass ≤ m
  · rw [if_pos hm, if_pos (decide_eq_true (solid_cons_zero.mpr hm))]
    rfl
  · rw [if_neg hm, if_neg (by rw [decide_eq_true_iff, solid_cons_zero]; exact hm)]
    rfl

theorem solids_append_singleton (ms : List R) (m : R) : solids (ms ++ [m]) =
    solids ms ++ if Scalar.zeroMass ≤ m then [ms.length] else [] := by
  have hinit : (List.range ms.length).filter (fun k => Solid (ms ++ [m]) k) = solids ms := by
    refine List.filter_congr fun k hk => ?_
    rw [decide_eq_decide, Solid, Solid, List.getElem?_append_left (List.mem_range.mp hk)]
  have hlast : Solid (ms ++ [m]) ms.length ↔ Scalar.zeroMass ≤ m := by
    rw [Solid, List.getElem?_concat_length]
    constructor
    · rintro ⟨_, hm, h⟩
      exact Option.some.inj hm ▸ h
    · exact fun h => ⟨m, rfl, h⟩
  rw [solids, List.length_append, List.length_singleton, List.range_succ, List.filter_append,
    hinit, List.filter_singleton]
  by_cases hm : Scalar.zeroMass ≤ m
  · rw [if_pos hm, decide_eq_true (hlast.mpr hm)]
    rfl
  · rw [if_neg hm, decide_eq_false (mt hlast.mp hm)]
    rfl

theorem lastSolid?_eq (masses : List R) : lastSolid? masses = (solids masses).getLast? := by
  induction masses using List.reverseRecOn with
  | nil => rfl
  | append_singleton ms m ih =>
    unfold lastSolid? at ih ⊢
    rw [List.zipIdx_append, List.foldl_append, ih, solids_append_singleton]
    by_cases hm : Scalar.zeroMass ≤ m <;> simp [hm]

end Computed

/-! ## A search in an increasing list -/

section Increasing

variable {α R : Type} [LinearOrder R] [DecidableLT R] {key : α → R} {es : List α}

/-- The items before the first one whose key exceeds `x` are those whose keys do not. -/
theorem lt_findIdx_iff (hkey : es.Pairwise fun d e => key d < key e) (x : R) {k : Nat}
    (hk : k < es.length) : k < es.findIdx (fun e => x < key e) ↔ key es[k] ≤ x := by
  constructor
  · intro hlt
    simpa using List.not_of_lt_findIdx hlt
  · intro hle
    by_contra hge
    have hlt : es.findIdx (fun e => x < key e) < es.length := by omega
    have habove : x < key es[es.findIdx fun e => x < key e] := by
      simpa using List.findIdx_getElem (w := hlt)
    rcases Nat.lt_or_eq_of_le (Nat.not_lt.mp hge) with hless | heq
    · have := List.pairwise_iff_getElem.mp hkey _ k hlt hk hless
      exact absurd (habove.trans this) (not_lt.mpr hle)
    · simp only [heq] at habove
      exact absurd habove (not_lt.mpr hle)

/-- The first item whose key exceeds `x`, or else the last one, is the `i`-th: `x` has reached the
key before, and not its own unless it is the last. -/
theorem getD_find?_eq_iff (hkey : es.Pairwise fun d e => key d < key e) (hne : es ≠ []) (x : R)
    {i : Nat} (hi : i < es.length) :
    (es.find? fun e => x < key e).getD (es.getLast hne) = es[i] ↔
      (∀ j (hj : j + 1 = i), key es[j] ≤ x) ∧ (i + 1 < es.length → x < key es[i]) := by
  have hlt {k : Nat} (hk : k < es.length) := lt_findIdx_iff hkey x hk
  generalize hfound : es.findIdx (fun e => decide (x < key e)) = found at hlt
  have hselected : (es.find? fun e => x < key e).getD (es.getLast hne) =
      es[min found (es.length - 1)] := by
    rw [List.find?_eq_getElem?_findIdx, hfound, List.getLast_eq_getElem]
    rcases Nat.lt_or_ge found es.length with h | h
    · rw [List.getElem?_eq_getElem h, Option.getD_some]
      congr 1
      omega
    · rw [List.getElem?_eq_none h, Option.getD_none]
      congr 1
      omega
  have hnodup : es.Nodup := hkey.imp fun h heq => absurd (heq ▸ h) (lt_irrefl _)
  rw [hselected, hnodup.getElem_inj_iff]
  constructor
  · intro hmin
    refine ⟨fun j hj => (hlt (by omega)).mp (by omega), fun hnext => ?_⟩
    exact not_le.mp fun hle => absurd ((hlt hi).mpr hle) (by omega)
  · rintro ⟨hbefore, hown⟩
    have hge : i ≤ found := by
      rcases Nat.eq_zero_or_eq_succ_pred i with hzero | hsucc
      · omega
      · have := (hlt (by omega)).mpr (hbefore (i - 1) hsucc.symm)
        omega
    have hle : i + 1 < es.length → found ≤ i := fun hnext =>
      not_lt.mp fun h => absurd ((hlt hi).mp h) (not_le.mpr (hown hnext))
    omega

end Increasing

/-! ## Running totals -/

section Exact

variable {R : Type} [RealScalar R] {masses : List R}

/-- The sum of all masses up to that of an outcome, faint ones included. -/
def through (masses : List R) (e : Nat) : R := (masses.take (e + 1)).sum

theorem through_cons_zero (m : R) (ms : List R) : through (m :: ms) 0 = m := by
  simp [through]

theorem through_cons_succ (m : R) (ms : List R) (e : Nat) :
    through (m :: ms) (e + 1) = m + through ms e := by
  rw [through, List.take_succ_cons, List.sum_cons, through]

/-- **The search for the outcome** is a search among those that are not faint. -/
theorem firstAbove?_eq (draw : R) (masses : List R) (k : Nat) (acc : R) :
    firstAbove? draw masses k acc =
      ((solids masses).find? fun e => draw < acc + through masses e).map (k + ·) := by
  induction masses generalizing k acc with
  | nil => rfl
  | cons m ms ih =>
    have hrest : (((solids ms).map Nat.succ).find? fun e => draw < acc + through (m :: ms) e).map
        (k + ·) = firstAbove? draw ms (k + 1) (acc + m) := by
      rw [ih, List.find?_map, Option.map_map]
      congr 1
      · funext e
        exact (Nat.succ_add_eq_add_succ k e).symm
      · congr 1
        funext e
        rw [Function.comp_apply, through_cons_succ, add_assoc]
    rw [firstAbove?, solids_cons, List.find?_append]
    by_cases hm : Scalar.zeroMass ≤ m
    · by_cases hdraw : draw < acc + m
      · simp [hm, hdraw, through_cons_zero]
      · rw [if_neg fun h => hdraw h.2, if_pos hm, ← hrest]
        simp [hdraw, through_cons_zero]
    · rw [if_neg fun h => hm h.1, if_neg hm, ← hrest]
      simp

/-- Behind an outcome that is not faint the running total is larger than before it. -/
theorem sum_take_lt_through {e : Nat} (he : Solid masses e) :
    (masses.take e).sum < through masses e := by
  obtain ⟨m, hm, hsolid⟩ := he
  obtain ⟨hlt, rfl⟩ := List.getElem?_eq_some_iff.mp hm
  rw [through, List.sum_take_succ _ _ hlt]
  exact lt_add_of_pos_right _ (RealScalar.zeroMass_pos.trans_le hsolid)

/-- Running totals do not decrease. -/
theorem through_le_sum_take (hnonneg : ∀ p ∈ masses, 0 ≤ p) {d e : Nat} (h : d < e) :
    through masses d ≤ (masses.take e).sum := by
  have hsplit := List.sum_take_add_sum_drop (masses.take e) (d + 1)
  rw [List.take_take, Nat.min_eq_left h] at hsplit
  rw [through, ← hsplit]
  refine le_add_of_nonneg_right (List.sum_nonneg fun p hp => hnonneg p ?_)
  exact List.mem_of_mem_take (List.mem_of_mem_drop hp)

/-- **The running totals of the outcomes that are not faint increase.** -/
theorem through_increasing (hnonneg : ∀ p ∈ masses, 0 ≤ p) :
    (solids masses).Pairwise fun d e => through masses d < through masses e :=
  (solids_sortedLT masses).pairwise.imp_of_mem fun _ he hlt =>
    (through_le_sum_take hnonneg hlt).trans_lt (sum_take_lt_through (mem_solids.mp he))

/-! ## The draws that select an outcome -/

/-- **What is selected**: the first outcome that is not faint and whose running total exceeds the
scaled draw, or else the last one. -/
theorem selectOutcome_eq (hnonneg : ∀ p ∈ masses, 0 ≤ p) (hne : solids masses ≠ []) (u : R) :
    selectOutcome masses u =
      .ok (((solids masses).find? fun e => u * masses.sum < through masses e).getD
        ((solids masses).getLast hne)) := by
  have htotal : Scalar.zeroMass ≤ masses.sum := by
    obtain ⟨e, he⟩ := List.exists_mem_of_ne_nil _ hne
    obtain ⟨m, hm, hsolid⟩ := mem_solids.mp he
    exact hsolid.trans (List.single_le_sum hnonneg m (List.mem_of_getElem? hm))
  have hsum : masses.foldl (· + ·) 0 = masses.sum := List.sum_eq_foldl.symm
  have hfirst (draw : R) : firstAbove? draw masses 0 0 =
      (solids masses).find? fun e => draw < through masses e := by
    simp [firstAbove?_eq]
  unfold selectOutcome
  simp only [hsum, if_neg (not_lt.mpr htotal), lastSolid?_eq, List.getLast?_eq_some_getLast hne,
    hfirst]

/-- The running total that draws must have reached to select the outcome in place `i` among those
that are not faint, unless one before it is selected: that of the outcome before. -/
def reached (masses : List R) : Nat → R
  | 0 => 0
  | i + 1 => through masses ((solids masses).getD i 0)

/-- The draws between the running totals of two outcomes that are not faint. Behind the last one
but one there is no upper bound. -/
def Draws (masses : List R) (i : Nat) (u : R) : Prop :=
  reached masses i ≤ u * masses.sum ∧
    (i + 1 < (solids masses).length → u * masses.sum < reached masses (i + 1))

theorem reached_succ {i : Nat} (hi : i < (solids masses).length) :
    reached masses (i + 1) = through masses (solids masses)[i] := by
  rw [reached, List.getD_eq_getElem _ _ hi]

/-- **An outcome that is not faint is selected by the draws of its interval.** -/
theorem selectOutcome_eq_ok_iff (hnonneg : ∀ p ∈ masses, 0 ≤ p) {u : R} (hu : 0 ≤ u) {i : Nat}
    (hi : i < (solids masses).length) :
    selectOutcome masses u = .ok (solids masses)[i] ↔ Draws masses i u := by
  have hne : solids masses ≠ [] := List.ne_nil_of_length_pos (Nat.zero_lt_of_lt hi)
  have hscaled : 0 ≤ u * masses.sum := mul_nonneg hu (List.sum_nonneg hnonneg)
  rw [selectOutcome_eq hnonneg hne, Except.ok.injEq,
    getD_find?_eq_iff (through_increasing hnonneg) hne _ hi, Draws, reached_succ hi]
  refine and_congr_left fun _ => ?_
  cases i with
  | zero => exact ⟨fun _ => hscaled, fun _ j hj => absurd hj (Nat.succ_ne_zero j)⟩
  | succ i =>
    rw [reached_succ (Nat.lt_of_succ_lt hi)]
    exact ⟨fun h => h i rfl, fun h j hj => by obtain rfl := Nat.succ.inj hj; exact h⟩

/-- Every draw lies in the interval of one outcome. -/
theorem existsUnique_draws (hnonneg : ∀ p ∈ masses, 0 ≤ p) (hne : solids masses ≠ []) {u : R}
    (hu : 0 ≤ u) : ∃! i, i < (solids masses).length ∧ Draws masses i u := by
  obtain ⟨e, he⟩ : ∃ e, selectOutcome masses u = .ok e := ⟨_, selectOutcome_eq hnonneg hne u⟩
  obtain ⟨i, hi, rfl⟩ := List.getElem_of_mem (mem_solids.mpr (solid_of_selectOutcome he))
  refine ⟨i, ⟨hi, (selectOutcome_eq_ok_iff hnonneg hu hi).mp he⟩, fun j ⟨hj, hdraws⟩ => ?_⟩
  have hsame := (selectOutcome_eq_ok_iff hnonneg hu hj).mpr hdraws
  exact (solids_sortedLT masses).pairwise.nodup.getElem_inj_iff.mp
    (Except.ok.inj (hsame.symm.trans he))

/-! ### Where no outcome is faint -/

/-- Masses that are all zero add nothing. -/
theorem sum_take_eq_of_zeros {d e : Nat} (hde : d ≤ e)
    (hzero : ∀ k (hk : k < masses.length), d ≤ k → k < e → masses[k] = 0) :
    (masses.take e).sum = (masses.take d).sum := by
  have hsplit := List.sum_take_add_sum_drop (masses.take e) d
  rw [List.take_take, Nat.min_eq_left hde] at hsplit
  have hrest : ((masses.take e).drop d).sum = 0 := by
    refine List.sum_eq_zero fun p hp => ?_
    obtain ⟨k, hk, rfl⟩ := List.getElem_of_mem hp
    rw [List.length_drop, List.length_take] at hk
    rw [List.getElem_drop, List.getElem_take]
    exact hzero (d + k) (by omega) (Nat.le_add_right d k) (by omega)
  rw [← hsplit, hrest, add_zero]

section Clear

variable (hclear : ∀ p ∈ masses, p = 0 ∨ Scalar.zeroMass ≤ p)

include hclear

theorem eq_zero_of_not_solid {k : Nat} (hk : k < masses.length) (h : ¬Solid masses k) :
    masses[k] = 0 :=
  (hclear _ (List.getElem_mem hk)).resolve_right fun hm =>
    h ⟨_, List.getElem?_eq_getElem hk, hm⟩

/-- Between an outcome that is not faint and the one before it there is no mass. -/
theorem reached_eq_sum_take {i : Nat} (hi : i < (solids masses).length) :
    reached masses i = (masses.take (solids masses)[i]).sum := by
  have hlt {j k : Nat} {hj : j < (solids masses).length} {hk : k < (solids masses).length} :
      (solids masses)[j] < (solids masses)[k] ↔ j < k :=
    (solids_sortedLT masses).getElem_lt_getElem_iff
  cases i with
  | zero =>
    refine (sum_take_eq_of_zeros (Nat.zero_le _) fun k hk _ hbelow => ?_).symm
    refine eq_zero_of_not_solid hclear hk fun hsolid => ?_
    obtain ⟨j, hj, rfl⟩ := List.getElem_of_mem (mem_solids.mpr hsolid)
    exact Nat.not_lt_zero j (hlt.mp hbelow)
  | succ i =>
    rw [reached_succ (Nat.lt_of_succ_lt hi)]
    refine (sum_take_eq_of_zeros (hlt.mpr (Nat.lt_succ_self i))
      fun k hk habove hbelow => ?_).symm
    refine eq_zero_of_not_solid hclear hk fun hsolid => ?_
    obtain ⟨j, hj, rfl⟩ := List.getElem_of_mem (mem_solids.mpr hsolid)
    have hij := hlt.mp habove
    have hji := hlt.mp hbelow
    omega

/-- Behind the last outcome that is not faint there is no mass. -/
theorem through_eq_sum {i : Nat} (hi : i < (solids masses).length)
    (hlast : ¬i + 1 < (solids masses).length) :
    through masses (solids masses)[i] = masses.sum := by
  have hlength := (mem_solids.mp (List.getElem_mem hi)).lt_length
  have hrest : (masses.take masses.length).sum = through masses (solids masses)[i] := by
    refine sum_take_eq_of_zeros hlength fun k hk habove _ => ?_
    refine eq_zero_of_not_solid hclear hk fun hsolid => ?_
    obtain ⟨j, hj, rfl⟩ := List.getElem_of_mem (mem_solids.mpr hsolid)
    have hij := (solids_sortedLT masses).getElem_lt_getElem_iff.mp habove
    omega
  rw [List.take_length] at hrest
  exact hrest.symm

/-- Where no outcome is faint, the draws that select an outcome with some mass are those between the
masses before it and the masses up to it. -/
theorem selectOutcome_eq_ok_iff_of_clear (hnonneg : ∀ p ∈ masses, 0 ≤ p) {u : R} (hu : 0 ≤ u)
    (hone : u < 1) {e : Nat} (he : Solid masses e) :
    selectOutcome masses u = .ok e ↔
      (masses.take e).sum ≤ u * masses.sum ∧ u * masses.sum < through masses e := by
  obtain ⟨i, hi, rfl⟩ := List.getElem_of_mem (mem_solids.mpr he)
  rw [selectOutcome_eq_ok_iff hnonneg hu hi, Draws, reached_eq_sum_take hclear hi, reached_succ hi]
  refine and_congr_right fun _ => ⟨fun hbelow => ?_, fun hbelow _ => hbelow⟩
  by_cases hlast : i + 1 < (solids masses).length
  · exact hbelow hlast
  · have hpos : 0 < masses.sum :=
      (through_eq_sum hclear hi hlast) ▸ (List.sum_nonneg fun p hp =>
        hnonneg p (List.mem_of_mem_take hp)).trans_lt (sum_take_lt_through he)
    rw [through_eq_sum hclear hi hlast]
    exact mul_lt_of_lt_one_left hpos hone

end Clear

end Exact

/-! ## Lengths -/

section Length

variable {masses : List ℝ}

/-- **Where no outcome is faint, an outcome is selected by its share of the draws.** -/
theorem volume_selectOutcome (hnonneg : ∀ p ∈ masses, 0 ≤ p)
    (hclear : ∀ p ∈ masses, p = 0 ∨ Scalar.zeroMass ≤ p) {e : Nat} (he : e < masses.length) :
    volume {u | u ∈ Set.Ico (0 : ℝ) 1 ∧ selectOutcome masses u = .ok e} =
      ENNReal.ofReal (masses[e] / masses.sum) := by
  by_cases hsolid : Solid masses e
  · have hbefore : 0 ≤ (masses.take e).sum :=
      List.sum_nonneg fun p hp => hnonneg p (List.mem_of_mem_take hp)
    have hupto : through masses e ≤ masses.sum := by
      rw [← List.sum_take_add_sum_drop masses (e + 1)]
      exact le_add_of_nonneg_right
        (List.sum_nonneg fun p hp => hnonneg p (List.mem_of_mem_drop hp))
    have hlt := sum_take_lt_through hsolid
    have hpos : 0 < masses.sum := (hbefore.trans_lt hlt).trans_le hupto
    have hinterval : {u | u ∈ Set.Ico (0 : ℝ) 1 ∧ selectOutcome masses u = .ok e} =
        Set.Ico ((masses.take e).sum / masses.sum) (through masses e / masses.sum) := by
      ext u
      rw [Set.mem_ofPred_eq, Set.mem_Ico, Set.mem_Ico, div_le_iff₀ hpos, lt_div_iff₀ hpos]
      constructor
      · rintro ⟨⟨hu, hone⟩, hselect⟩
        exact (selectOutcome_eq_ok_iff_of_clear hclear hnonneg hu hone hsolid).mp hselect
      · rintro ⟨hge, hbelow⟩
        have hu : 0 ≤ u := nonneg_of_mul_nonneg_left (hbefore.trans hge) hpos
        have hone : u < 1 := by
          by_contra h
          exact absurd (hbelow.trans_le hupto)
            (not_lt.mpr (le_mul_of_one_le_left hpos.le (not_lt.mp h)))
        exact ⟨⟨hu, hone⟩,
          (selectOutcome_eq_ok_iff_of_clear hclear hnonneg hu hone hsolid).mpr ⟨hge, hbelow⟩⟩
    rw [hinterval, Real.volume_Ico, ← sub_div, through, List.sum_take_succ _ _ he,
      add_sub_cancel_left]
  · have hnever : {u | u ∈ Set.Ico (0 : ℝ) 1 ∧ selectOutcome masses u = .ok e} = ∅ :=
      Set.eq_empty_of_forall_notMem fun u hu => hsolid (solid_of_selectOutcome hu.2)
    rw [hnever, measure_empty, eq_zero_of_not_solid hclear he hsolid, zero_div,
      ENNReal.ofReal_zero]

/-- **A measurement finds an outcome by its share of the mass**, where no outcome is faint. -/
theorem volume_measure {v : StateVector (Amplitude ℝ)} {n offset width outcome : Nat}
    (hv : v.size = 2 ^ n) (hn : n < 64) (hrange : offset + width ≤ n)
    (hclear : ∀ k < 2 ^ width, v.outcomeMass offset width k = 0 ∨
      Scalar.zeroMass ≤ v.outcomeMass offset width k) (houtcome : outcome < 2 ^ width) :
    volume {u | u ∈ Set.Ico (0 : ℝ) 1 ∧ ∃ after,
        v.measure offset width u = .ok ⟨outcome, after⟩} =
      ENNReal.ofReal (v.outcomeMass offset width outcome / v.mass) := by
  have hlist := toList_computed v offset width
  have hlength : outcome < (v.outcomeMasses offset width).toList.length := by
    rwa [hlist, List.length_map, List.length_range]
  have hsum : (v.outcomeMasses offset width).toList.sum = v.mass :=
    List.sum_eq_foldl.trans (foldl_outcomeMasses v offset width)
  have hmem {p : ℝ} (hp : p ∈ (v.outcomeMasses offset width).toList) :
      ∃ k < 2 ^ width, p = v.outcomeMass offset width k := by
    rw [hlist] at hp
    obtain ⟨k, hk, rfl⟩ := List.mem_map.mp hp
    exact ⟨k, List.mem_range.mp hk, rfl⟩
  have hdraws : {u | u ∈ Set.Ico (0 : ℝ) 1 ∧ ∃ after,
      v.measure offset width u = .ok ⟨outcome, after⟩} = {u | u ∈ Set.Ico (0 : ℝ) 1 ∧
        selectOutcome (v.outcomeMasses offset width).toList u = .ok outcome} := by
    ext u
    refine and_congr_right fun _ => ?_
    rw [measure_eq hv hn, if_neg (Nat.not_lt.mpr hrange)]
    simp only [bind_eq_ok]
    constructor
    · rintro ⟨after, found, hfound, h⟩
      obtain ⟨rfl, -⟩ := Measured.mk.inj (Except.ok.inj h)
      exact hfound
    · exact fun h => ⟨_, outcome, h, rfl⟩
  rw [hdraws, volume_selectOutcome (fun p hp => ?_) (fun p hp => ?_) hlength, hsum]
  · simp only [hlist, List.getElem_map, List.getElem_range]
  · obtain ⟨k, -, rfl⟩ := hmem hp
    rw [outcomeMass_eq_sum]
    refine Finset.sum_nonneg fun i _ => ?_
    split
    · exact add_nonneg (mul_self_nonneg _) (mul_self_nonneg _)
    · exact le_rfl
  · obtain ⟨k, hk, rfl⟩ := hmem hp
    exact hclear k hk

/-- **The Born rule, up to faint outcomes.** Of outcomes whose masses are not negative, and not all
faint, those that are not faint are selected by the draws between the running total of the one
before and their own; the last of them has no upper bound. Every draw from `[0, 1)` lies in the
interval of exactly one. An outcome that is faint is never selected. Where each mass is zero or not
faint, the draws that select an outcome have its share of the mass as their length. -/
theorem born_rule (masses : List ℝ) (hnonneg : ∀ p ∈ masses, 0 ≤ p)
    (hsome : ∃ k, Solid masses k) :
    (∀ u ∈ Set.Ico (0 : ℝ) 1, ∀ i (hi : i < (solids masses).length),
      selectOutcome masses u = .ok (solids masses)[i] ↔ Draws masses i u) ∧
    (∀ u ∈ Set.Ico (0 : ℝ) 1, ∃! i, i < (solids masses).length ∧ Draws masses i u) ∧
    (∀ u e, selectOutcome masses u = .ok e →
      ∃ he : e < masses.length, Scalar.zeroMass ≤ masses[e]) ∧
    ((∀ p ∈ masses, ¬(0 < p ∧ p < Scalar.zeroMass)) → ∀ e (he : e < masses.length),
      volume {u | u ∈ Set.Ico (0 : ℝ) 1 ∧ selectOutcome masses u = .ok e} =
        ENNReal.ofReal (masses[e] / masses.sum)) := by
  obtain ⟨k, hk⟩ := hsome
  have hne : solids masses ≠ [] := List.ne_nil_of_mem (mem_solids.mpr hk)
  refine ⟨fun u hu i hi => selectOutcome_eq_ok_iff hnonneg hu.1 hi,
    fun u hu => existsUnique_draws hnonneg hne hu.1, fun u e he => ?_, fun hclear e he => ?_⟩
  · obtain ⟨m, hm, hsolid⟩ := solid_of_selectOutcome he
    obtain ⟨hlt, rfl⟩ := List.getElem?_eq_some_iff.mp hm
    exact ⟨hlt, hsolid⟩
  · refine volume_selectOutcome hnonneg (fun p hp => ?_) he
    rcases (hnonneg p hp).eq_or_lt with hzero | hpos
    · exact Or.inl hzero.symm
    · exact Or.inr (not_lt.mp fun h => hclear p hp ⟨hpos, h⟩)

/-- A faint mass between two others counts for the one behind it, and a mass of zero does not. -/
theorem born_rule_between :
    selectOutcome [1, 1 / 10 ^ 13, (3 : ℝ)] (1 / 4) = .ok 2 ∧
      volume {u | u ∈ Set.Ico (0 : ℝ) 1 ∧ selectOutcome [1, 0, 3] u = .ok 2} =
        ENNReal.ofReal (3 / 4) := by
  have hmass : (Scalar.zeroMass : ℝ) = 1 / 10 ^ 12 := by
    show ((1 : ℕ) : ℝ) * 10 ^ (-12 : ℤ) = 1 / 10 ^ 12
    norm_num
  constructor
  · have hsolids : solids [1, 1 / 10 ^ 13, (3 : ℝ)] = [0, 2] := by
      simp only [solids_cons, hmass]
      norm_num [solids]
    obtain ⟨hselect, -⟩ := born_rule [1, 1 / 10 ^ 13, 3]
      (by norm_num) ⟨0, solid_cons_zero.mpr (by rw [hmass]; norm_num)⟩
    have h := (hselect (1 / 4) (by norm_num) 1 (by rw [hsolids]; decide)).mpr
      (by simp only [Draws, reached, through, hsolids]; norm_num)
    simpa only [hsolids, List.getElem_cons_succ, List.getElem_cons_zero] using h
  · obtain ⟨-, -, -, hlength⟩ := born_rule [1, 0, 3]
      (by norm_num) ⟨0, solid_cons_zero.mpr (by rw [hmass]; norm_num)⟩
    have h := hlength (by norm_num [hmass]) 2 (by decide)
    norm_num at h
    exact h

end Length

end OpenQasm.StateVector
