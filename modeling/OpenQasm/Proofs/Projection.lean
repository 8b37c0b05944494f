import OpenQasm.Proofs.Stability

/-!
# Measuring is projecting

A measurement of some bits keeps the entries whose indices read the outcome there, divided by the
root of their mass, and clears the others. Scalars are not assumed to obey any law: a mass is a sum
in the order of the indices, rounded as the scalars round (`outcomeMass`), and a cleared entry is
zero divided by the root. What this amounts to in exact arithmetic is said apart.

* `measure_eq_error`, `exists_measure`: how a measurement ends; `projectedOnto_of_measure`: what it
  leaves.
* `faint_iff`, `ProjectedOnto.get_eq_zero`: the same over exact scalars.
* `Laid.measure_changes`, `Laid.measureBit_changes`: what a measurement changes in a machine.
* **`Machine.measurement_projects`**: all of it together.
-/

namespace OpenQasm

open BitIndex Kernel Finset

namespace BitIndex

/-- An index reads `outcome` in the bits `offset, ... offset + width - 1`. -/
def Reads (offset width outcome i : Nat) : Prop :=
  ∀ j < width, i.testBit (offset + j) = outcome.testBit j

instance (offset width outcome i : Nat) : Decidable (Reads offset width outcome i) :=
  inferInstanceAs (Decidable (∀ j < width, i.testBit (offset + j) = outcome.testBit j))

variable {offset width outcome i : Nat}

theorem field_eq_iff_reads (h : outcome < 2 ^ width) :
    field offset width i = outcome ↔ Reads offset width outcome i := by
  constructor
  · rintro rfl j hj
    rw [Bool.eq_iff_iff, testBit_field]
    exact (and_iff_right hj).symm
  · intro hreads
    refine ext_bits fun j => ?_
    rw [testBit_field]
    constructor
    · rintro ⟨hj, hi⟩
      rwa [← hreads j hj]
    · intro ho
      have hj : j < width := lt_of_testBit h ho
      exact ⟨hj, by rwa [hreads j hj]⟩

/-- The bits of a number that fits them write it. -/
theorem ofBits_bits : ∀ {width n : Nat}, n < 2 ^ width → ofBits (bits width n) = n
  | 0, n, h => by
    obtain rfl : n = 0 := by simpa using h
    rfl
  | width + 1, n, h => by
    have hhalf : n / 2 < 2 ^ width := by rw [Nat.pow_succ] at h; omega
    have hrest : (List.range width).map (n.testBit ∘ Nat.succ) = bits width (n / 2) :=
      List.map_congr_left fun j _ => Nat.testBit_succ n j
    rw [bits, List.range_succ_eq_map, List.map_cons, List.map_map, hrest]
    show (n.testBit 0).toNat + 2 * ofBits (bits width (n / 2)) = n
    rw [ofBits_bits hhalf, Nat.testBit_zero]
    rcases Nat.mod_two_eq_zero_or_one n with hn | hn <;> simp [hn] <;> omega

end BitIndex

namespace StateVector

variable {R : Type}

/-! ## Measuring, whatever the scalars are -/

section Computed

variable [Scalar R] {v after : StateVector (Amplitude R)} {n offset width outcome : Nat} {u : R}

/-- The mass of the entries that read an outcome, added up in the order of their indices. -/
def outcomeMass (v : StateVector (Amplitude R)) (offset width outcome : Nat) : R :=
  ((List.range v.size).filter fun i => Reads offset width outcome i).foldl
    (fun acc i => acc + (v.get i).mass) 0

/-- There is too little mass to measure: in all outcomes together, or in each of them. -/
def Faint (v : StateVector (Amplitude R)) (offset width : Nat) : Prop :=
  ((List.range (2 ^ width)).map (v.outcomeMass offset width)).foldl (· + ·) 0 < Scalar.zeroMass ∨
    ∀ outcome < 2 ^ width, ¬Scalar.zeroMass ≤ v.outcomeMass offset width outcome

/-- What a measurement leaves that finds `outcome`, which has some mass: the entries that read it,
divided by the root of their mass, and zero, divided likewise, in the place of the others. -/
structure ProjectedOnto (v after : StateVector (Amplitude R)) (offset width outcome : Nat) :
    Prop where
  outcome_lt : outcome < 2 ^ width
  solid : Scalar.zeroMass ≤ v.outcomeMass offset width outcome
  size : after.size = v.size
  kept : ∀ i < v.size, Reads offset width outcome i →
    after.get i = (v.get i).divBy (Scalar.sqrt (v.outcomeMass offset width outcome))
  cleared : ∀ i < v.size, ¬Reads offset width outcome i →
    after.get i = (0 : Amplitude R).divBy (Scalar.sqrt (v.outcomeMass offset width outcome))

theorem toList_computed (v : StateVector (Amplitude R)) (offset width : Nat) :
    (v.outcomeMasses offset width).toList =
      (List.range (2 ^ width)).map (v.outcomeMass offset width) := by
  refine (toList_tally ..).trans (List.map_congr_left fun k hk => ?_)
  rw [outcomeMass]
  congr 2
  funext i
  rw [Bool.eq_iff_iff, beq_iff_eq, decide_eq_true_iff]
  exact field_eq_iff_reads (List.mem_range.mp hk)

theorem getD_computed (h : outcome < 2 ^ width) :
    (v.outcomeMasses offset width).getD outcome 0 = v.outcomeMass offset width outcome := by
  rw [Array.getD_eq_getD_getElem?, ← Array.getElem?_toList, toList_computed, List.getElem?_map,
    List.getElem?_range h, Option.map_some, Option.getD_some]

/-- The outcomes whose masses are not faint. -/
theorem solid_computed : Solid (v.outcomeMasses offset width).toList outcome ↔
    outcome < 2 ^ width ∧ Scalar.zeroMass ≤ v.outcomeMass offset width outcome := by
  rw [Solid, toList_computed, List.getElem?_map]
  constructor
  · rintro ⟨m, hm, hsolid⟩
    obtain ⟨k, hk, rfl⟩ := Option.map_eq_some_iff.mp hm
    obtain ⟨hlt, rfl⟩ := List.getElem?_eq_some_iff.mp hk
    rw [List.getElem_range] at hsolid
    exact ⟨by rwa [List.length_range] at hlt, hsolid⟩
  · rintro ⟨hlt, hsolid⟩
    exact ⟨_, by rw [List.getElem?_range hlt, Option.map_some], hsolid⟩

/-- **When no outcome can be selected.** -/
theorem selectOutcome_eq_error {masses : List R} {e : AlgebraError} :
    selectOutcome masses u = .error e ↔ e = .zeroProbability ∧
      (masses.foldl (· + ·) 0 < Scalar.zeroMass ∨ ∀ k, ¬Solid masses k) := by
  unfold selectOutcome
  dsimp only
  split
  · rename_i hfaint
    exact ⟨fun h => ⟨(Except.error.inj h).symm, Or.inl hfaint⟩, fun h => h.1 ▸ rfl⟩
  rename_i hmass
  cases hlast : lastSolid? masses with
  | none =>
    refine ⟨fun h => ⟨(Except.error.inj h).symm, Or.inr fun k hk => ?_⟩, fun h => h.1 ▸ rfl⟩
    exact lastSolid_ne_none hk hlast
  | some last =>
    refine ⟨nofun, fun h => ?_⟩
    rcases h.2 with hfaint | hnone
    · exact absurd hfaint hmass
    · exact absurd (solid_of_lastSolid hlast) (hnone last)

/-- The masses among which no outcome can be selected. -/
theorem selectOutcome_outcomeMasses {e : AlgebraError} :
    selectOutcome (v.outcomeMasses offset width).toList u = .error e ↔
      e = .zeroProbability ∧ v.Faint offset width := by
  rw [selectOutcome_eq_error, Faint, ← toList_computed]
  simp only [solid_computed, not_and]

omit [Scalar R] in
theorem checkRange_eq (hv : v.size = 2 ^ n) (hn : n < 64) :
    v.checkRange offset width =
      if n < offset + width then .error (.outOfRange offset width n) else .ok () := by
  rw [checkRange, qubits, trailingZeros, hv, halvings_two_pow hn]

theorem measure_eq (hv : v.size = 2 ^ n) (hn : n < 64) : v.measure offset width u =
    if n < offset + width then .error (.outOfRange offset width n)
    else do
      let outcome ← selectOutcome (v.outcomeMasses offset width).toList u
      return ⟨outcome, v.collapse offset width outcome
        (Scalar.sqrt ((v.outcomeMasses offset width).getD outcome 0))⟩ := by
  rw [measure, checkRange_eq hv hn]
  split <;> rfl

theorem measure_eq_error (hv : v.size = 2 ^ n) (hn : n < 64) {e : AlgebraError} :
    v.measure offset width u = .error e ↔
      (e = .outOfRange offset width n ∧ n < offset + width) ∨
        (e = .zeroProbability ∧ offset + width ≤ n ∧ v.Faint offset width) := by
  rw [measure_eq hv hn]
  split
  · rename_i hout
    constructor
    · exact fun h => Or.inl ⟨(Except.error.inj h).symm, hout⟩
    · rintro (⟨rfl, -⟩ | ⟨-, hin, -⟩)
      · rfl
      · omega
  · rename_i hin
    have hle := Nat.not_lt.mp hin
    cases hselect : selectOutcome (v.outcomeMasses offset width).toList u with
    | error found =>
      obtain ⟨rfl, hfaint⟩ := selectOutcome_outcomeMasses.mp hselect
      constructor
      · exact fun h => Or.inr ⟨(Except.error.inj h).symm, hle, hfaint⟩
      · rintro (⟨-, hout⟩ | ⟨rfl, -⟩)
        · omega
        · rfl
    | ok found =>
      refine ⟨nofun, ?_⟩
      rintro (⟨-, hout⟩ | ⟨rfl, -, hfaint⟩)
      · omega
      · rw [selectOutcome_outcomeMasses.mpr ⟨rfl, hfaint⟩] at hselect
        cases hselect

/-- A measurement that does not fail projects. -/
theorem projectedOnto_of_measure (h : v.measure offset width u = .ok ⟨outcome, after⟩) :
    v.ProjectedOnto after offset width outcome := by
  obtain ⟨-, -, h⟩ := bind_eq_ok.mp h
  obtain ⟨found, hfound, h⟩ := bind_eq_ok.mp h
  obtain ⟨rfl, rfl⟩ := Measured.mk.inj (Except.ok.inj h)
  obtain ⟨hlt, hsolid⟩ := solid_computed.mp (solid_of_selectOutcome hfound)
  rw [getD_computed hlt]
  have hget {i : Nat} (hi : i < v.size) :
      (v.collapse offset width found (Scalar.sqrt (v.outcomeMass offset width found))).get i =
        (if field offset width i = found then v.get i else 0).divBy
          (Scalar.sqrt (v.outcomeMass offset width found)) := entry_tabulate _ hi
  refine ⟨hlt, hsolid, size_tabulate _ _, fun i hi hreads => ?_, fun i hi hreads => ?_⟩
  · rw [hget hi, if_pos ((field_eq_iff_reads hlt).mpr hreads)]
  · rw [hget hi, if_neg (mt (field_eq_iff_reads hlt).mp hreads)]

/-- Where there is something to measure, whatever is drawn is found. -/
theorem exists_measure (hv : v.size = 2 ^ n) (hn : n < 64) (hrange : offset + width ≤ n)
    (hsolid : ¬v.Faint offset width) (u : R) :
    ∃ outcome after, v.measure offset width u = .ok ⟨outcome, after⟩ := by
  cases h : v.measure offset width u with
  | error e =>
    rcases (measure_eq_error hv hn).mp h with ⟨-, hout⟩ | ⟨-, -, hfaint⟩
    · omega
    · exact absurd hfaint hsolid
  | ok measured => exact ⟨measured.outcome, measured.after, rfl⟩

end Computed

/-! ## Measuring in exact arithmetic -/

section Exact

variable [RealScalar R] {v after : StateVector (Amplitude R)} {offset width outcome : Nat}

theorem outcomeMass_eq_sum (v : StateVector (Amplitude R)) (offset width outcome : Nat) :
    v.outcomeMass offset width outcome =
      ∑ i ∈ range v.size, if Reads offset width outcome i then (v.get i).mass else 0 := by
  rw [outcomeMass, foldl_filter_range]
  simp only [decide_eq_true_iff]

/-- There is too little to measure where the vector, or each outcome, has too little mass. -/
theorem faint_iff : v.Faint offset width ↔ v.mass < Scalar.zeroMass ∨
    ∀ outcome < 2 ^ width, v.outcomeMass offset width outcome < Scalar.zeroMass := by
  simp only [Faint, ← toList_computed, foldl_outcomeMasses, not_le]

theorem ProjectedOnto.get_eq_zero (h : v.ProjectedOnto after offset width outcome) {i : Nat}
    (hi : i < v.size) (hreads : ¬Reads offset width outcome i) : after.get i = 0 :=
  (h.cleared i hi hreads).trans (Amplitude.zero_divBy _)

end Exact

end StateVector

namespace Machine

variable {R : Type} {m after : Machine R}

/-- A change of the register of a name is a change at one place of the list. -/
theorem Laid.classical_updateClassical (hm : m.Laid) {name : String} {c : ClassicalRegister}
    (hc : m.classicalRegister name = .ok c) (change : ClassicalRegister → ClassicalRegister) :
    ∃ i, m.classical[i]? = some ⟨name, c.bits⟩ ∧
      (m.updateClassical name change).classical =
        m.classical.set i (change ⟨name, c.bits⟩) := by
  have hsame : ⟨name, c.bits⟩ = c := by rw [← name_of_classicalRegister hc]
  obtain ⟨i, hi⟩ := List.mem_iff_getElem?.mp
    (List.mem_of_find?_eq_some (classicalRegister_eq_ok.mp hc))
  rw [hsame]
  refine ⟨i, hi, List.ext_getElem? fun j => ?_⟩
  rw [updateClassical, List.getElem?_map, List.getElem?_set]
  by_cases hj : i = j
  · subst hj
    rw [hi, Option.map_some, if_pos (beq_iff_eq.mpr (name_of_classicalRegister hc)), if_pos rfl,
      if_pos (List.getElem?_eq_some_iff.mp hi).1]
  rw [if_neg hj]
  cases hr : m.classical[j]? with
  | none => rfl
  | some r =>
    -- another place holds another name
    have hother : r.name ≠ name := fun hname => by
      obtain rfl := hm.classical_unique hc (List.mem_of_getElem? hr) hname
      have hnodup := (List.nodup_append'.mp hm.distinct).2.1.of_map
      exact hj ((hnodup.getElem_inj_iff ..).mp
        ((List.getElem?_eq_some_iff.mp hi).2.trans (List.getElem?_eq_some_iff.mp hr).2.symm))
    rw [Option.map_some, if_neg (mt beq_iff_eq.mp hother)]

section Measuring

variable [Scalar R]

/-- **What a measurement of a register changes**: the vector, the draws that are taken, and the
value of the classical register, which is the outcome. -/
theorem Laid.measure_changes (hm : m.Laid) {source target : String}
    (h : m.measure source target = .ok after) :
    ∃ q i held outcome vector, m.quantumRegister source = .ok q ∧
      m.classical[i]? = some ⟨target, held⟩ ∧ held.length = q.width ∧
      m.vector.measure q.offset q.width (m.draws m.drawn) = .ok ⟨outcome, vector⟩ ∧
      after = { m with
        vector
        drawn := m.drawn + 1
        classical := m.classical.set i ⟨target, bits q.width outcome⟩ } := by
  obtain ⟨q, c, outcome, vector, hq, hc, hwidth, hv, rfl⟩ := measure_eq_ok.mp h
  obtain ⟨i, hi, hset⟩ := hm.classical_updateClassical hc fun r =>
    { r with bits := bits q.width outcome }
  exact ⟨q, i, c.bits, outcome, vector, hq, hi, hwidth, hv,
    congrArg (fun classical => { m with vector, drawn := m.drawn + 1, classical }) hset⟩

/-- **What a measurement of a qubit changes**: the vector, the draws that are taken, and one bit. -/
theorem Laid.measureBit_changes (hm : m.Laid) {source target : String} {j k : Nat}
    (h : m.measureBit source j target k = .ok after) :
    ∃ q i held outcome vector, m.quantumRegister source = .ok q ∧ j < q.width ∧
      m.classical[i]? = some ⟨target, held⟩ ∧ k < held.length ∧
      m.vector.measure (q.offset + j) 1 (m.draws m.drawn) = .ok ⟨outcome, vector⟩ ∧
      after = { m with
        vector
        drawn := m.drawn + 1
        classical := m.classical.set i ⟨target, held.set k (outcome.testBit 0)⟩ } := by
  obtain ⟨bit, c, outcome, vector, hbit, hc, hk, hv, rfl⟩ := measureBit_eq_ok.mp h
  obtain ⟨q, hq, hj, rfl⟩ := qubit_eq_ok.mp hbit
  obtain ⟨i, hi, hset⟩ := hm.classical_updateClassical hc (·.setBit k (outcome.testBit 0))
  exact ⟨q, i, c.bits, outcome, vector, hq, hj, hi, hk, hv,
    congrArg (fun classical => { m with vector, drawn := m.drawn + 1, classical }) hset⟩

end Measuring

/-- **Measuring is projecting.** In a vector of `2 ^ n` entries, `n` less than the width of a word,
a measurement fails with `outOfRange` exactly where the bits are not bits of the index, and with
`zeroProbability` exactly where they are and there is too little mass, in all or in each outcome.
Otherwise, whatever is drawn, it finds an outcome that has some mass, whose bits write it, and
leaves the entries that read it, divided by the root of their mass. In exact arithmetic the other
entries are zero, and the mass that is left is one. In every machine that requests lead to, only the
vector, the number of draws and the register or the bit that is measured into change. -/
theorem measurement_projects :
    (∀ (R : Type) [Scalar R] (v : StateVector (Amplitude R)) (n offset width : Nat) (u : R),
      v.size = 2 ^ n → n < 64 →
      (v.measure offset width u = .error (.outOfRange offset width n) ↔ n < offset + width) ∧
      (v.measure offset width u = .error .zeroProbability ↔
        offset + width ≤ n ∧ v.Faint offset width) ∧
      (offset + width ≤ n → ¬v.Faint offset width →
        ∃ outcome after, v.measure offset width u = .ok ⟨outcome, after⟩ ∧
          v.ProjectedOnto after offset width outcome ∧
          (bits width outcome).length = width ∧ ofBits (bits width outcome) = outcome)) ∧
    (∀ (R : Type) [RealScalar R] (v : StateVector (Amplitude R)) (offset width : Nat),
      (∀ outcome, v.outcomeMass offset width outcome =
        ∑ i ∈ range v.size, if Reads offset width outcome i then (v.get i).mass else 0) ∧
      (v.Faint offset width ↔ v.mass < Scalar.zeroMass ∨
        ∀ outcome < 2 ^ width, v.outcomeMass offset width outcome < Scalar.zeroMass) ∧
      ∀ u outcome after, v.measure offset width u = .ok ⟨outcome, after⟩ →
        (∀ i < v.size, ¬Reads offset width outcome i → after.get i = 0) ∧ after.mass = 1) ∧
    ∀ (R : Type) [Scalar R] (maxQubits : Nat) (draws : Nat → R) (history : List (Request R)),
      let m := (initial maxQubits draws).serveAll history
      (∀ source target after, m.measure source target = .ok after →
        ∃ q i held outcome vector, m.quantumRegister source = .ok q ∧
          m.classical[i]? = some ⟨target, held⟩ ∧ held.length = q.width ∧
          m.vector.measure q.offset q.width (m.draws m.drawn) = .ok ⟨outcome, vector⟩ ∧
          after = { m with
            vector
            drawn := m.drawn + 1
            classical := m.classical.set i ⟨target, bits q.width outcome⟩ }) ∧
      ∀ source j target k after, m.measureBit source j target k = .ok after →
        ∃ q i held outcome vector, m.quantumRegister source = .ok q ∧ j < q.width ∧
          m.classical[i]? = some ⟨target, held⟩ ∧ k < held.length ∧
          m.vector.measure (q.offset + j) 1 (m.draws m.drawn) = .ok ⟨outcome, vector⟩ ∧
          after = { m with
            vector
            drawn := m.drawn + 1
            classical := m.classical.set i ⟨target, held.set k (outcome.testBit 0)⟩ } := by
  refine ⟨?_, ?_, ?_⟩
  · intro R _ v n offset width u hv hn
    refine ⟨?_, ?_, fun hrange hsolid => ?_⟩
    · rw [StateVector.measure_eq_error hv hn]
      simp
    · rw [StateVector.measure_eq_error hv hn]
      simp
    · obtain ⟨outcome, after, h⟩ := StateVector.exists_measure hv hn hrange hsolid u
      have hprojected := StateVector.projectedOnto_of_measure h
      exact ⟨outcome, after, h, hprojected, by rw [bits, List.length_map, List.length_range],
        ofBits_bits hprojected.outcome_lt⟩
  · intro R _ v offset width
    refine ⟨v.outcomeMass_eq_sum offset width, StateVector.faint_iff, fun u outcome after h => ?_⟩
    exact ⟨fun i => (StateVector.projectedOnto_of_measure h).get_eq_zero,
      StateVector.mass_of_measure h⟩
  · intro R _ maxQubits draws history m
    have hm : m.Laid := (serveAll_spec (laid_initial maxQubits draws) history).1
    exact ⟨fun source target after => hm.measure_changes,
      fun source j target k after => hm.measureBit_changes⟩

/-- The flipped qubit: nothing else has mass, a bit beyond it is out of range, and what is found is
written to the register or to its bit. -/
theorem measurement_projects_flipped :
    let m := (initial 24 fun _ => (0 : ℝ)).serveAll flippedHistory
    m.vector.measure 1 1 0 = .error (.outOfRange 1 1 1) ∧ ¬m.vector.Faint 0 1 ∧
      (∃ outcome after, m.vector.measure 0 1 0 = .ok ⟨outcome, after⟩ ∧
        m.vector.ProjectedOnto after 0 1 outcome ∧ after.mass = 1) ∧
      (∃ i held vector, m.classical[i]? = some ⟨"c", held⟩ ∧
        m.measure "q" "c" = .ok { m with
          vector, drawn := 1, classical := m.classical.set i ⟨"c", [true]⟩ }) ∧
      ∃ i held vector, m.classical[i]? = some ⟨"c", held⟩ ∧
        m.measureBit "q" 0 "c" 0 = .ok { m with
          vector, drawn := 1, classical := m.classical.set i ⟨"c", held.set 0 true⟩ } := by
  intro m
  obtain ⟨hcomputed, hexact, hmachine⟩ := measurement_projects
  obtain ⟨hregister, hbit⟩ := hmachine ℝ 24 (fun _ => 0) flippedHistory
  have hmeasured : m.vector.measure 0 1 0 = .ok ⟨1, m.vector⟩ := measure_flippedHistory
  obtain ⟨hout, -, -⟩ := hcomputed ℝ m.vector 1 1 1 0 rfl (by decide)
  obtain ⟨-, hfaint, hfound⟩ := hcomputed ℝ m.vector 1 0 1 0 rfl (by decide)
  have hsolid : ¬m.vector.Faint 0 1 := fun hf => by
    have hfails := hfaint.mpr ⟨by decide, hf⟩
    rw [hmeasured] at hfails
    cases hfails
  refine ⟨hout.mpr (by decide), hsolid, ?_, ?_, ?_⟩
  · obtain ⟨outcome, after, h, hprojected, -⟩ := hfound (by decide) hsolid
    exact ⟨outcome, after, h, hprojected, ((hexact ℝ m.vector 0 1).2.2 0 outcome after h).2⟩
  · have h : m.measure "q" "c" = .ok _ :=
      measure_eq_ok.mpr ⟨⟨"q", 0, 1⟩, ⟨"c", [false]⟩, 1, _, rfl, rfl, rfl, hmeasured, rfl⟩
    obtain ⟨q, i, held, outcome, vector, hq, hi, -, hv, hafter⟩ := hregister "q" "c" _ h
    obtain rfl : ⟨"q", 0, 1⟩ = q := Except.ok.inj hq
    obtain ⟨rfl, rfl⟩ := StateVector.Measured.mk.inj
      (Except.ok.inj (hmeasured.symm.trans hv))
    exact ⟨i, held, m.vector, hi, h.trans (congrArg Except.ok hafter)⟩
  · have h : m.measureBit "q" 0 "c" 0 = .ok _ :=
      measureBit_eq_ok.mpr
        ⟨0, ⟨"c", [false]⟩, 1, _, rfl, rfl, Nat.zero_lt_one, hmeasured, rfl⟩
    obtain ⟨q, i, held, outcome, vector, hq, -, hi, -, hv, hafter⟩ := hbit "q" 0 "c" 0 _ h
    obtain rfl : ⟨"q", 0, 1⟩ = q := Except.ok.inj hq
    obtain ⟨rfl, rfl⟩ := StateVector.Measured.mk.inj
      (Except.ok.inj (hmeasured.symm.trans hv))
    exact ⟨i, held, m.vector, hi, h.trans (congrArg Except.ok hafter)⟩

end Machine

end OpenQasm
