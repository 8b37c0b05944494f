import OpenQasm.Proofs.Conservation
import OpenQasm.Proofs.History
import OpenQasm.Proofs.Interruption
import OpenQasm.Proofs.Support

/-!
# A gate does not signal to bits that it does not touch

Collapsing some bits of a vector and applying an operator to others may be done in either order,
since the entries that the kernel adds up all carry the same outcome. A unitary operator keeps the
mass of what was collapsed, so each outcome of the other bits has the same mass before and after.
Arithmetic is exact (`RealScalar`).

* `collapse_applied`: the two orders. From it, `fieldMass_applied` and `outcomeMasses_applied`.
* `measure_applied`: with the same draw, a measurement finds the same outcome, and leaves what the
  operator makes of what it would have left.
* `Machine.Unsignalled`: what a call keeps of a register that is not among its operands, however
  far it gets (`unsignalled_call`).
* **`Machine.no_signalling`**: both, for vectors and for machines.
-/

namespace OpenQasm

open BitIndex Kernel Finset

namespace Amplitude

variable {R : Type} [RealScalar R]

/-- Dividing by a real number is multiplying by its inverse. -/
theorem divBy_eq_mul (a : Amplitude R) (x : R) : a.divBy x = ⟨x⁻¹, 0⟩ * a := by
  ext
  · rw [mul_re, zero_mul, sub_zero, inv_mul_eq_div]
    rfl
  · rw [mul_im, zero_mul, add_zero, inv_mul_eq_div]
    rfl

end Amplitude

namespace StateVector

variable {R : Type}

/-- A vector after an operator on some of its bits. -/
def applied {A : Type} [Zero A] [Add A] [Mul A] (v : StateVector A) (operator : SquareMatrix A)
    (targets : List Nat) : StateVector A :=
  ⟨applyOnTargets v.entries operator.entries targets⟩

variable [RealScalar R] {v : StateVector (Amplitude R)} {operator : SquareMatrix (Amplitude R)}
  {targets : List Nat} {n offset width : Nat}

theorem size_applied (v : StateVector (Amplitude R)) (operator : SquareMatrix (Amplitude R))
    (targets : List Nat) : (v.applied operator targets).size = v.size := size_applyOnTargets ..

/-- The entries of a collapse, also where there are none. -/
theorem get_collapse_all (v : StateVector (Amplitude R)) (offset width outcome : Nat) (norm : R)
    (i : Nat) : (v.collapse offset width outcome norm).get i =
      if field offset width i = outcome then (v.get i).divBy norm else 0 := by
  by_cases hi : i < v.size
  · exact get_collapse hi norm
  · have hnone : v.get i = 0 := by_contra fun h => hi (lt_of_get_ne_zero h)
    have hcollapse : (v.collapse offset width outcome norm).get i = 0 :=
      by_contra fun h => (of_get_collapse_ne_zero h).2 hnone
    rw [hcollapse, hnone, Amplitude.zero_divBy, ite_self]

/-- **Collapsing some bits** commutes with an operator on others. -/
theorem collapse_applied (havoids : ∀ p ∈ block offset width, p ∉ targets) (outcome : Nat)
    (norm : R) : (v.applied operator targets).collapse offset width outcome norm =
      (v.collapse offset width outcome norm).applied operator targets := by
  have hsize (w : StateVector (Amplitude R)) :
      (w.collapse offset width outcome norm).size = w.size := Machine.size_collapse ..
  have hcollapsed : ∀ i j, (v.collapse offset width outcome norm).get (patch targets i j) =
      if field offset width i = outcome then ⟨norm⁻¹, 0⟩ * v.get (patch targets i j) else 0 := by
    intro i j
    rw [get_collapse_all, field_patch havoids, Amplitude.divBy_eq_mul]
  refine congrArg StateVector.mk (ext_entries ?_ fun i hi => ?_)
  · rw [size_tabulate, size_applied, size_applyOnTargets]
    exact (hsize v).symm
  rw [size_tabulate, size_applied] at hi
  refine (get_collapse_all ..).trans (Eq.trans ?_
    (entry_applyOnTargets _ _ _ (hi.trans_eq (hsize v).symm)).symm)
  rw [get, applied, entry_applyOnTargets _ _ _ hi, Amplitude.divBy_eq_mul, mul_sum]
  simp only [get] at hcollapsed
  simp only [hcollapsed]
  split
  · exact sum_congr rfl fun j _ => mul_left_comm _ _ _
  · simp only [mul_zero, sum_const_zero]

/-- What is collapsed without scaling has the mass of its outcome. -/
theorem mass_collapse_one (v : StateVector (Amplitude R)) (offset width outcome : Nat) :
    (v.collapse offset width outcome 1).mass = v.fieldMass offset width outcome := by
  have hsize : (v.collapse offset width outcome 1).size = v.size := Machine.size_collapse ..
  rw [mass_eq_sum, hsize, fieldMass]
  refine sum_congr rfl fun i _ => ?_
  rw [get_collapse_all, Amplitude.divBy_one]
  split
  · rfl
  · exact Amplitude.mass_zero

/-- **An outcome of bits that a unitary operator does not touch** keeps its mass. -/
theorem fieldMass_applied (hu : operator.Unitary (2 ^ targets.length))
    (hplaced : Placed n operator targets) (hv : v.size = 2 ^ n)
    (havoids : ∀ p ∈ block offset width, p ∉ targets) (outcome : Nat) :
    (v.applied operator targets).fieldMass offset width outcome =
      v.fieldMass offset width outcome := by
  have hcollapsed : (v.collapse offset width outcome 1).size = 2 ^ n :=
    (Machine.size_collapse ..).trans hv
  calc (v.applied operator targets).fieldMass offset width outcome
      = ((v.collapse offset width outcome 1).applied operator targets).mass := by
        rw [← mass_collapse_one, collapse_applied havoids]
    _ = (v.collapse offset width outcome 1).mass := mass_applyOnTargets hu hplaced hcollapsed
    _ = v.fieldMass offset width outcome := mass_collapse_one ..

theorem outcomeMasses_applied (hu : operator.Unitary (2 ^ targets.length))
    (hplaced : Placed n operator targets) (hv : v.size = 2 ^ n)
    (havoids : ∀ p ∈ block offset width, p ∉ targets) :
    (v.applied operator targets).outcomeMasses offset width = v.outcomeMasses offset width :=
  outcomeMasses_congr (fieldMass_applied hu hplaced hv havoids)

/-- The outcome that a draw finds. -/
def foundOutcome (v : StateVector (Amplitude R)) (offset width : Nat) (u : R) :
    Except AlgebraError Nat := do
  v.checkRange offset width
  selectOutcome (v.outcomeMasses offset width).toList u

/-- A measurement finds an outcome and collapses the vector onto it. -/
theorem measure_eq_map (v : StateVector (Amplitude R)) (offset width : Nat) (u : R) :
    v.measure offset width u = (v.foundOutcome offset width u).map fun outcome =>
      ⟨outcome, v.collapse offset width outcome
        (Scalar.sqrt ((v.outcomeMasses offset width).getD outcome 0))⟩ := by
  unfold measure foundOutcome
  cases v.checkRange offset width with
  | error e => rfl
  | ok =>
    dsimp only [bind, Except.bind]
    cases selectOutcome (v.outcomeMasses offset width).toList u <;> rfl

/-- The masses of the outcomes decide what a draw finds. -/
theorem foundOutcome_congr {w : StateVector (Amplitude R)} (hsize : w.size = v.size)
    (hmasses : w.outcomeMasses offset width = v.outcomeMasses offset width) (u : R) :
    w.foundOutcome offset width u = v.foundOutcome offset width u := by
  rw [foundOutcome, foundOutcome, checkRange, checkRange, qubits, qubits, hsize, hmasses]

/-- **Measuring some bits** commutes with a unitary operator on others. -/
theorem measure_applied (hu : operator.Unitary (2 ^ targets.length))
    (hplaced : Placed n operator targets) (hv : v.size = 2 ^ n)
    (havoids : ∀ p ∈ block offset width, p ∉ targets) (u : R) :
    (v.applied operator targets).measure offset width u =
      (v.measure offset width u).map fun measured =>
        ⟨measured.outcome, measured.after.applied operator targets⟩ := by
  have hmasses := outcomeMasses_applied hu hplaced hv havoids
  rw [measure_eq_map, measure_eq_map, foundOutcome_congr (size_applied ..) hmasses, hmasses]
  simp only [collapse_applied havoids]
  cases v.foundOutcome offset width u <;> rfl

end StateVector

namespace Machine

variable {R : Type}

section Avoids

variable [Scalar R] {m : Machine R}

/-- The applications of a call act on no qubit of a register that is not among its operands. -/
theorem Laid.avoids_of_applications (hm : m.Laid) {name : String} {q : QuantumRegister}
    (hq : m.quantumRegister name = .ok q) {c : GateCall}
    (hother : ∀ v ∈ c.operands, v.name ≠ name) {calls : List (Applied R)}
    (hcalls : m.applications c = .ok calls) :
    ∀ a ∈ calls, ∀ p ∈ block q.offset q.width, p ∉ a.bits := by
  intro a ha p hp hmem
  obtain ⟨parameters, bits, count, hbits, hcount, hnumbered⟩ := of_applications_ok hcalls
  obtain ⟨k, hk⟩ := List.mem_iff_getElem?.mp ha
  obtain ⟨hlt, rfl⟩ := hnumbered k a hk
  obtain ⟨i, hi⟩ := List.mem_iff_getElem?.mp hmem
  obtain ⟨v, hv, r, hr, hindex, rfl, -⟩ := exists_operand hbits hcount hlt hi
  obtain ⟨hlow, hhigh⟩ := mem_block.mp hp
  obtain ⟨hrmem, hrname⟩ := mem_of_quantumRegister hr
  obtain ⟨hqmem, hqname⟩ := mem_of_quantumRegister hq
  -- one qubit is in one register only
  have hsame : r = q := hm.tiled.unique (j := r.offset + v.index.getD k - q.offset) hindex
    (by omega) (by omega) hrmem hqmem
  exact hother v hv (hrname.symm.trans ((congrArg _ hsame).trans hqname))

end Avoids

variable [RealScalar R] {m next after : Machine R} {q : QuantumRegister} {table : GateTable}

/-- Nothing but the vector may differ, and measuring `q` finds each outcome with the same mass. -/
structure Unsignalled (m : Machine R) (q : QuantumRegister) (after : Machine R) : Prop where
  vector_only : after = { m with vector := after.vector }
  size : after.vector.size = m.vector.size
  masses : after.vector.outcomeMasses q.offset q.width = m.vector.outcomeMasses q.offset q.width

theorem Unsignalled.refl (m : Machine R) (q : QuantumRegister) : m.Unsignalled q m :=
  ⟨rfl, rfl, rfl⟩

/-- **One application** to other qubits. -/
theorem Unsignalled.applyNamed (h : m.Unsignalled q next) (hm : m.Laid) {gate : GateName}
    {parameters : List R} {targets : List Nat}
    (havoids : ∀ p ∈ block q.offset q.width, p ∉ targets)
    (happlied : next.applyNamed table gate parameters targets = .ok after) :
    m.Unsignalled q after := by
  obtain ⟨instantiated, hinstantiate, happly⟩ := applyNamed_eq_ok.mp happlied
  obtain ⟨hlt, hdistinct, operator, hr, hdim, rfl⟩ := apply_eq_ok.mp happly
  have hu := GateTable.unitary_of_instantiate hinstantiate hr
  rw [hdim] at hu
  have hqubits : next.qubits = m.qubits := by rw [h.vector_only]; rfl
  have hsize : next.vector.size = 2 ^ next.qubits := by rw [h.size, hqubits, hm.size]
  refine ⟨?_, (size_applyOnTargets ..).trans h.size, ?_⟩
  · rw [h.vector_only]
  · exact (StateVector.outcomeMasses_applied hu ⟨hdim, hdistinct, hlt⟩ hsize havoids).trans h.masses

/-- **A call keeps a register that is not among its operands**, however far it gets. -/
theorem unsignalled_call (hm : m.Laid) {name : String} (hq : m.quantumRegister name = .ok q)
    {c : GateCall} (hother : ∀ v ∈ c.operands, v.name ≠ name) :
    m.Unsignalled q (m.call table c).state := by
  rw [call_eq]
  cases hcalls : m.applications c with
  | error e => exact .refl m q
  | ok calls =>
    have havoids := hm.avoids_of_applications hq hother hcalls
    exact Outcome.invariant_forAll_of_mem (P := m.Unsignalled q)
      (fun s a ha hs => Outcome.invariant_ofExcept hs fun _ h => hs.applyNamed hm (havoids a ha) h)
      (.refl m q)

/-- With the same draw, measuring the register writes the same bits, or fails alike. -/
theorem Unsignalled.measure (h : m.Unsignalled q after) {source : String}
    (hq : m.quantumRegister source = .ok q) (target : String) :
    (after.measure source target).map (·.classical) =
      (m.measure source target).map (·.classical) := by
  have hfound := StateVector.foundOutcome_congr h.size h.masses (m.draws m.drawn)
  rw [h.vector_only]
  generalize after.vector = w at hfound
  have hq' : ({ m with vector := w } : Machine R).quantumRegister source = .ok q := hq
  have hc' : ({ m with vector := w } : Machine R).classicalRegister target =
    m.classicalRegister target := rfl
  unfold Machine.measure
  rw [hq, hq', hc']
  cases m.classicalRegister target with
  | error e => rfl
  | ok c =>
    by_cases hwidth : c.width ≠ q.width
    · simp only [bind, Except.bind, if_pos hwidth]
      rfl
    · simp only [bind, Except.bind, if_neg hwidth, measureBits, StateVector.measure_eq_map, hfound]
      cases m.vector.foundOutcome q.offset q.width (m.draws m.drawn) <;> rfl

/-- **A gate does not signal to qubits that it does not touch.** A unitary operator leaves the mass
of each outcome of other bits as it was, and with each draw, measuring them before it or after it is
the same. So whatever call a program executes, a register that is not among its operands has the
same outcomes with the same masses, and with each draw its measurement writes the same bits. -/
theorem no_signalling :
    (∀ (v : StateVector (Amplitude R)) (operator : SquareMatrix (Amplitude R))
        (targets : List Nat) (n offset width : Nat), v.size = 2 ^ n →
      operator.Unitary (2 ^ targets.length) → targets.Nodup → (∀ t ∈ targets, t < n) →
      (∀ t ∈ targets, t < offset ∨ offset + width ≤ t) →
      (v.applied operator targets).outcomeMasses offset width = v.outcomeMasses offset width ∧
      ∀ u, (v.applied operator targets).measure offset width u =
        (v.measure offset width u).map fun measured =>
          ⟨measured.outcome, measured.after.applied operator targets⟩) ∧
    ∀ (m : Machine R) (table : GateTable) (c : GateCall) (name : String) (q : QuantumRegister),
      m.Laid → m.quantumRegister name = .ok q → (∀ v ∈ c.operands, v.name ≠ name) →
      (m.call table c).state.vector.outcomeMasses q.offset q.width =
        m.vector.outcomeMasses q.offset q.width ∧
      ∀ target, ((m.call table c).state.measure name target).map (·.classical) =
        (m.measure name target).map (·.classical) := by
  constructor
  · intro v operator targets n offset width hv hu hdistinct hlt hother
    have hplaced : Placed n operator targets := ⟨hu.1, hdistinct, hlt⟩
    have havoids : ∀ p ∈ block offset width, p ∉ targets := by
      intro p hp ht
      have := mem_block.mp hp
      have := hother p ht
      omega
    exact ⟨StateVector.outcomeMasses_applied hu hplaced hv havoids,
      StateVector.measure_applied hu hplaced hv havoids⟩
  · intro m table c name q hm hq hother
    have h : m.Unsignalled q (m.call table c).state := unsignalled_call hm hq hother
    exact ⟨h.masses, h.measure hq⟩

/-- A turn of the upper one of two correlated qubits makes a new entry and leaves the masses of the
lower one, 9 and 16. Any call on one register leaves what another one shows. -/
theorem no_signalling_turned :
    let v : StateVector (Amplitude ℝ) := ⟨#[⟨3, 0⟩, 0, 0, ⟨4, 0⟩]⟩
    let turn : SquareMatrix (Amplitude ℝ) :=
      Gate.square2 ⟨3 / 5, 0⟩ (-⟨4 / 5, 0⟩) ⟨4 / 5, 0⟩ ⟨3 / 5, 0⟩
    let m := (initial 24 fun _ => (0 : ℝ)).serveAll
      [.declareQuantum "q" 1, .declareQuantum "r" 1, .declareClassical "c" 1]
    v.get 2 = 0 ∧ ((v.applied turn [1]).get 2).re = 12 / 5 ∧
      v.outcomeMasses 0 1 = #[9, 16] ∧ (v.applied turn [1]).outcomeMasses 0 1 = #[9, 16] ∧
      ∀ gate parameters pos,
        (((m.call [] ⟨gate, parameters, [⟨"r", none, pos⟩]⟩).state.measure "q" "c").map
          (·.classical)) = (m.measure "q" "c").map (·.classical) := by
  intro v turn m
  obtain ⟨hvector, hmachine⟩ := no_signalling (R := ℝ)
  have hreal : ∀ x : ℝ, star (⟨x, 0⟩ : Amplitude ℝ) = ⟨x, 0⟩ := by
    intro x
    ext <;> simp [Amplitude.star_eq_conj, Amplitude.conj]
  have hturn : turn.Unitary 2 := by
    have hcolumn : (⟨3 / 5, 0⟩ : Amplitude ℝ) * star ⟨3 / 5, 0⟩ +
        ⟨4 / 5, 0⟩ * star ⟨4 / 5, 0⟩ = 1 := by
      rw [hreal, hreal]
      ext
      · norm_num [Amplitude.mul_re, Amplitude.add_re, Amplitude.one_re]
      · norm_num [Amplitude.mul_im, Amplitude.add_im, Amplitude.one_im]
    have h := Gate.unitary_square2 hcolumn
    rwa [hreal, hreal] at h
  have hmasses : v.outcomeMasses 0 1 = #[9, 16] := by
    rw [← Array.toList_inj, StateVector.toList_outcomeMasses]
    simp [StateVector.fieldMass, List.range_succ, sum_range_succ, field, v, StateVector.size,
      StateVector.get, entry, Amplitude.mass, Amplitude.zero_re, Amplitude.zero_im]
    norm_num
  have hzero : v.get 2 = 0 := by simp [v, StateVector.get, entry]
  have hnew : ((v.applied turn [1]).get 2).re = 12 / 5 := by
    rw [StateVector.get, StateVector.applied, entry_applyOnTargets _ _ _ (by decide)]
    simp [sum_range_succ, gather, patch, clear, mask, without, spread, v, turn, entry,
      Gate.square2, Amplitude.mul_re, show Nat.testBit 2 1 = true from rfl]
    norm_num
  have hq : m.quantumRegister "q" = .ok ⟨"q", 0, 1⟩ := rfl
  have hm : m.Laid := (serveAll_spec (laid_initial 24 fun _ => (0 : ℝ)) _).1
  refine ⟨hzero, hnew, hmasses, ?_, fun gate parameters pos => ?_⟩
  · exact (hvector v turn [1] 2 0 1 rfl hturn (by decide) (by decide) (by decide)).1.trans hmasses
  · exact (hmachine m [] ⟨gate, parameters, [⟨"r", none, pos⟩]⟩ "q" _ hm hq (by simp)).2 "c"

end Machine

end OpenQasm
