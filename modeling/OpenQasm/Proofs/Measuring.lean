import OpenQasm.Proofs.Layout

/-!
# Declaring, measuring and resetting

When the operations of a machine other than gates succeed, and what they leave: one iff lemma for
each. `apply_eq_ok` is the one for gates.

* `measureBits_eq_ok`, `measure_eq_ok`, `measureBit_eq_ok`: a measurement, with the draw it takes.
* `resetQuantum_eq_ok`, `resetQubit_eq_ok`, `resetClassical_eq_ok`, `resetClassicalBit_eq_ok`.
* `declareQuantum_eq_ok`.
-/

namespace OpenQasm

open BitIndex

namespace Machine

variable {R : Type} {m after : Machine R}

/-! ## Looking up -/

theorem checkIndex_eq_ok {name : String} {index width : Nat} :
    checkIndex name index width = .ok () ↔ index < width := by
  unfold checkIndex
  by_cases h : width ≤ index
  · rw [if_pos h]
    exact ⟨nofun, fun hlt => absurd h (Nat.not_le.mpr hlt)⟩
  · rw [if_neg h]
    exact ⟨fun _ => Nat.not_le.mp h, fun _ => rfl⟩

theorem qubit_eq_ok {name : String} {index bit : Nat} :
    m.qubit name index = .ok bit ↔
      ∃ r, m.quantumRegister name = .ok r ∧ index < r.width ∧ bit = r.offset + index := by
  unfold qubit
  simp only [bind_eq_ok]
  constructor
  · rintro ⟨r, hr, ⟨⟩, hindex, h⟩
    exact ⟨r, hr, checkIndex_eq_ok.mp hindex, (Except.ok.inj h).symm⟩
  · rintro ⟨r, hr, hindex, rfl⟩
    exact ⟨r, hr, (), checkIndex_eq_ok.mpr hindex, rfl⟩

theorem mem_of_quantumRegister {name : String} {r : QuantumRegister}
    (h : m.quantumRegister name = .ok r) : r ∈ m.quantum ∧ r.name = name := by
  have hfound := quantumRegister_eq_ok.mp h
  exact ⟨List.mem_of_find?_eq_some hfound, by simpa using List.find?_some hfound⟩

/-- A register is found under its name. -/
theorem Laid.quantumRegister_of_mem (hm : m.Laid) {r : QuantumRegister} (hr : r ∈ m.quantum) :
    m.quantumRegister r.name = .ok r := by
  rw [quantumRegister_eq_ok]
  cases hfound : m.quantum.find? (·.name == r.name) with
  | none =>
    have hother := List.find?_eq_none.mp hfound r hr
    exact absurd (beq_self_eq_true r.name) hother
  | some s =>
    have hname : s.name = r.name := by simpa using List.find?_some hfound
    have hnodup := (List.nodup_append'.mp hm.distinct).1
    rw [List.inj_on_of_nodup_map hnodup (List.mem_of_find?_eq_some hfound) hr hname]

/-- A register that is found lies within the qubits of the machine. -/
theorem Laid.within_of_quantumRegister (hm : m.Laid) {name : String} {r : QuantumRegister}
    (h : m.quantumRegister name = .ok r) : r.offset + r.width ≤ m.qubits := by
  have hwithin := (hm.tiled.within (mem_of_quantumRegister h).1).2
  rwa [Nat.zero_add] at hwithin

theorem Laid.qubit_lt (hm : m.Laid) {name : String} {index bit : Nat}
    (h : m.qubit name index = .ok bit) : bit < m.qubits := by
  obtain ⟨r, hr, hindex, rfl⟩ := qubit_eq_ok.mp h
  have := hm.within_of_quantumRegister hr
  omega

/-- The bits of the machine may be measured. -/
theorem Laid.checkRange (hm : m.Laid) {offset width : Nat} (h : offset + width ≤ m.qubits) :
    m.vector.checkRange offset width = .ok () := by
  rw [StateVector.checkRange, hm.vector_qubits, if_neg (Nat.not_lt.mpr h)]

/-- A name that is found among the classical registers is not that of a quantum register. -/
theorem Laid.isQuantum_of_classicalRegister (hm : m.Laid) {name : String} {c : ClassicalRegister}
    (hc : m.classicalRegister name = .ok c) : m.isQuantum name = false := by
  rw [Bool.eq_false_iff]
  intro hquantum
  obtain ⟨r, hr, hrname⟩ := List.any_eq_true.mp hquantum
  have hcname : c.name = name := by simpa using List.find?_some (classicalRegister_eq_ok.mp hc)
  have hcmem := List.mem_of_find?_eq_some (classicalRegister_eq_ok.mp hc)
  refine (List.nodup_append'.mp hm.distinct).2.2 (List.mem_map_of_mem hr) ?_
  rw [show r.name = c.name from (by simpa using hrname : r.name = name).trans hcname.symm]
  exact List.mem_map_of_mem hcmem

/-- The register that is changed is found under its name. -/
theorem classicalRegister_updateClassical {name : String} {r : ClassicalRegister}
    {change : ClassicalRegister → ClassicalRegister} (hr : m.classicalRegister name = .ok r)
    (hname : ∀ r, (change r).name = r.name) :
    (m.updateClassical name change).classicalRegister name = .ok (change r) := by
  rw [classicalRegister_eq_ok] at hr ⊢
  have hsame : ((·.name == name) ∘ fun r => if r.name == name then change r else r) =
      fun r : ClassicalRegister => r.name == name := by
    funext r
    simp only [Function.comp_apply]
    split
    · rw [hname]
    · rfl
  have hfound := List.find?_some hr
  rw [updateClassical, List.find?_map, hsame, hr, Option.map_some, if_pos hfound]

/-! ## Classical registers -/

theorem resetClassical_eq_ok {name : String} :
    m.resetClassical name = .ok after ↔
      ∃ r, m.classicalRegister name = .ok r ∧ after = m.updateClassical name .cleared := by
  unfold resetClassical
  cases m.classicalRegister name with
  | error e => exact ⟨nofun, nofun⟩
  | ok r =>
    constructor
    · exact fun h => ⟨r, rfl, (Except.ok.inj h).symm⟩
    · rintro ⟨-, -, rfl⟩
      rfl

theorem resetClassicalBit_eq_ok {name : String} {index : Nat} :
    m.resetClassicalBit name index = .ok after ↔
      ∃ r, m.classicalRegister name = .ok r ∧ index < r.width ∧
        after = m.updateClassical name (·.setBit index false) := by
  unfold resetClassicalBit
  simp only [bind_eq_ok]
  constructor
  · rintro ⟨r, hr, ⟨⟩, hindex, h⟩
    exact ⟨r, hr, checkIndex_eq_ok.mp hindex, (Except.ok.inj h).symm⟩
  · rintro ⟨r, hr, hindex, rfl⟩
    exact ⟨r, hr, (), checkIndex_eq_ok.mpr hindex, rfl⟩

variable [Scalar R]

/-! ## The state vector -/

/-- A declaration puts fresh qubits above the others. -/
theorem declareQuantum_eq_ok {name : String} {width : Nat} :
    m.declareQuantum name width = .ok after ↔ m.checkFresh name width = .ok () ∧
      min (m.qubits + width) countLimit ≤ m.limit ∧
        ∃ fresh, StateVector.zeroState width = .ok fresh ∧
          after = { m with
            vector := fresh.tensor m.vector
            quantum := m.quantum ++ [⟨name, m.qubits, width⟩] } := by
  unfold declareQuantum
  rw [seq_eq_ok]
  refine and_congr_right fun _ => ?_
  dsimp only
  rw [ite_throw_bind_eq_ok, Nat.not_lt, bind_eq_ok]
  refine and_congr_right fun _ => exists_congr fun fresh => ?_
  rw [mapError_eq_ok]
  exact and_congr_right fun _ =>
    ⟨fun h => (Except.ok.inj h).symm, fun h => congrArg Except.ok h.symm⟩

/-- What a measurement of bits leaves: the vector that is measured with the next draw, and that draw
taken. -/
theorem measureBits_eq_ok {offset width outcome : Nat} :
    m.measureBits offset width = .ok (outcome, after) ↔
      ∃ vector, m.vector.measure offset width (m.draws m.drawn) = .ok ⟨outcome, vector⟩ ∧
        after = { m with vector, drawn := m.drawn + 1 } := by
  unfold measureBits
  rw [bind_eq_ok]
  constructor
  · rintro ⟨⟨found, vector⟩, hm, h⟩
    obtain ⟨rfl, rfl⟩ := Prod.mk.inj (Except.ok.inj h)
    exact ⟨vector, mapError_eq_ok.mp hm, rfl⟩
  · rintro ⟨vector, hm, rfl⟩
    exact ⟨⟨outcome, vector⟩, mapError_eq_ok.mpr hm, rfl⟩

/-- **A measurement of a register** measures its bits and writes what it finds to the classical
register. -/
theorem measure_eq_ok {source target : String} :
    m.measure source target = .ok after ↔
      ∃ q c outcome vector, m.quantumRegister source = .ok q ∧
        m.classicalRegister target = .ok c ∧ c.width = q.width ∧
        m.vector.measure q.offset q.width (m.draws m.drawn) = .ok ⟨outcome, vector⟩ ∧
        after = { m with vector, drawn := m.drawn + 1 }.updateClassical target fun r =>
          { r with bits := bits q.width outcome } := by
  unfold measure
  simp only [bind_eq_ok, ite_throw_bind_eq_ok, not_ne_iff, Prod.exists, measureBits_eq_ok]
  constructor
  · rintro ⟨q, hq, c, hc, hwidth, outcome, next, ⟨vector, hm, rfl⟩, h⟩
    exact ⟨q, c, outcome, vector, hq, hc, hwidth, hm, (Except.ok.inj h).symm⟩
  · rintro ⟨q, c, outcome, vector, hq, hc, hwidth, hm, rfl⟩
    exact ⟨q, hq, c, hc, hwidth, outcome, _, ⟨vector, hm, rfl⟩, rfl⟩

/-- **A measurement of a qubit** measures its bit and writes it to the classical bit. -/
theorem measureBit_eq_ok {source target : String} {i j : Nat} :
    m.measureBit source i target j = .ok after ↔
      ∃ bit c outcome vector, m.qubit source i = .ok bit ∧ m.classicalRegister target = .ok c ∧
        j < c.width ∧ m.vector.measure bit 1 (m.draws m.drawn) = .ok ⟨outcome, vector⟩ ∧
        after = { m with vector, drawn := m.drawn + 1 }.updateClassical target
          (·.setBit j (outcome.testBit 0)) := by
  unfold measureBit
  simp only [bind_eq_ok, Prod.exists, measureBits_eq_ok]
  constructor
  · rintro ⟨bit, hbit, c, hc, ⟨⟩, hj, outcome, next, ⟨vector, hm, rfl⟩, h⟩
    exact ⟨bit, c, outcome, vector, hbit, hc, checkIndex_eq_ok.mp hj, hm,
      (Except.ok.inj h).symm⟩
  · rintro ⟨bit, c, outcome, vector, hbit, hc, hj, hm, rfl⟩
    exact ⟨bit, hbit, c, hc, (), checkIndex_eq_ok.mpr hj, outcome, _, ⟨vector, hm, rfl⟩, rfl⟩

theorem resetQuantum_eq_ok {name : String} :
    m.resetQuantum name = .ok after ↔
      ∃ r vector, m.quantumRegister name = .ok r ∧ m.vector.reset r.offset r.width = .ok vector ∧
        after = { m with vector } := by
  unfold resetQuantum
  simp only [bind_eq_ok, mapError_eq_ok]
  constructor
  · rintro ⟨r, hr, vector, hv, h⟩
    exact ⟨r, vector, hr, hv, (Except.ok.inj h).symm⟩
  · rintro ⟨r, vector, hr, hv, rfl⟩
    exact ⟨r, hr, vector, hv, rfl⟩

theorem resetQubit_eq_ok {name : String} {index : Nat} :
    m.resetQubit name index = .ok after ↔
      ∃ bit vector, m.qubit name index = .ok bit ∧ m.vector.reset bit 1 = .ok vector ∧
        after = { m with vector } := by
  unfold resetQubit
  simp only [bind_eq_ok, mapError_eq_ok]
  constructor
  · rintro ⟨bit, hbit, vector, hv, h⟩
    exact ⟨bit, vector, hbit, hv, (Except.ok.inj h).symm⟩
  · rintro ⟨bit, vector, hbit, hv, rfl⟩
    exact ⟨bit, hbit, vector, hv, rfl⟩

end Machine

end OpenQasm
