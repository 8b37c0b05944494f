import Mathlib.Algebra.BigOperators.Field
import OpenQasm.Proofs.History
import OpenQasm.Proofs.Measuring
import OpenQasm.Proofs.Support

/-!
# Measured bits stay measured

A measurement leaves a machine that `Shows` its outcome: every entry of the vector that is not zero
carries it. Whatever else is asked of the machine keeps that, as long as no gate acts on the bits
that were measured, so later measurements of the bits find the same again.

* `Shows.respond`, `Shows.serveAll`: what one request keeps, and from it what a history keeps.
* `Shows.measure_later`, `Shows.measureBit_later`: measuring later finds the outcome.
* `Shows.measure_again`, `Shows.measureBit_again`: measuring again succeeds and changes nothing
  where no mass has been lost.
* **`Machine.outcomes_stable`**: both, after every history of requests.
-/

namespace OpenQasm

open BitIndex

/-- A request that applies no gate to these bits. -/
def Request.Avoids {R : Type} (positions : List Nat) : Request R → Prop
  | .apply _ targets => ∀ b ∈ positions, b ∉ targets
  | _ => True

namespace StateVector

variable {R : Type} [RealScalar R] {v w : StateVector (Amplitude R)}
  {offset width outcome : Nat}

/-- A measurement of any bits keeps what is carried. -/
theorem Carries.of_measure (h : v.Carries offset width outcome) {offset' width' found : Nat}
    {u : R} (hw : v.measure offset' width' u = .ok ⟨found, w⟩) :
    w.Carries offset width outcome := by
  obtain ⟨-, -, rfl⟩ := of_measure_ok hw
  exact h.collapse _ _ _ _

/-- What a measurement leaves carries its outcome. -/
theorem carries_of_measure {u : R} (hw : v.measure offset width u = .ok ⟨outcome, w⟩) :
    w.Carries offset width outcome := by
  obtain ⟨-, -, rfl⟩ := of_measure_ok hw
  exact carries_collapse _

end StateVector

namespace Machine

variable {R : Type} {m after : Machine R}

/-- Found registers have the name that was looked up. -/
theorem name_of_classicalRegister {name : String} {r : ClassicalRegister}
    (h : m.classicalRegister name = .ok r) : r.name = name := by
  simpa using List.find?_some (classicalRegister_eq_ok.mp h)

/-- A register that is found is found in a longer list as well. -/
theorem quantumRegister_append {name : String} {q : QuantumRegister}
    (h : m.quantumRegister name = .ok q) {added : List QuantumRegister}
    (hadded : after.quantum = m.quantum ++ added) : after.quantumRegister name = .ok q := by
  rw [quantumRegister_eq_ok] at h ⊢
  rw [hadded, List.find?_append, h, Option.some_or]

/-- The value that a measurement writes to a whole register. -/
theorem classicalRegister_written {name : String} {c : ClassicalRegister}
    (hc : m.classicalRegister name = .ok c) (bits : List Bool) :
    (m.updateClassical name fun r => { r with bits }).classicalRegister name =
      .ok ⟨name, bits⟩ := by
  have h : (m.updateClassical name fun r => { r with bits }).classicalRegister name =
      .ok { c with bits } := classicalRegister_updateClassical hc fun _ => rfl
  rwa [name_of_classicalRegister hc] at h

section Quantum

variable [Scalar R]

/-- Registers are only ever added, behind those that are there. -/
theorem quantum_of_respond_ok {request : Request R} (h : m.respond request = .ok after) :
    ∃ added, after.quantum = m.quantum ++ added := by
  have hsame : after.quantum = m.quantum → ∃ added, after.quantum = m.quantum ++ added :=
    fun h => ⟨[], h.trans (List.append_nil _).symm⟩
  cases request with
  | declareQuantum name width =>
    obtain ⟨-, -, fresh, -, rfl⟩ := declareQuantum_eq_ok.mp h
    exact ⟨_, rfl⟩
  | declareClassical name width =>
    obtain ⟨-, rfl⟩ := declareClassical_eq_ok.mp h
    exact hsame rfl
  | apply gate targets => exact hsame (keeps_of_apply h).quantum
  | measure source target =>
    obtain ⟨q, c, outcome, vector, -, -, -, -, rfl⟩ := measure_eq_ok.mp h
    exact hsame rfl
  | measureBit source i target j => exact hsame (keeps_of_measureBit h).quantum
  | resetQuantum name => exact hsame (keeps_of_resetQuantum h).quantum
  | resetQubit name index => exact hsame (keeps_of_resetQubit h).quantum
  | resetClassical name => exact hsame (keeps_of_resetClassical h).quantum
  | resetClassicalBit name index => exact hsame (keeps_of_resetClassicalBit h).quantum

theorem quantum_of_serveAll (m : Machine R) (requests : List (Request R)) :
    ∃ added, (m.serveAll requests).quantum = m.quantum ++ added := by
  induction requests generalizing m with
  | nil => exact ⟨[], (List.append_nil _).symm⟩
  | cons request rest ih =>
    obtain ⟨later, hlater⟩ := ih (m.serve request)
    have hstep : ∃ added, (m.serve request).quantum = m.quantum ++ added := by
      unfold serve
      cases h : m.respond request with
      | ok next => exact quantum_of_respond_ok h
      | error fault => exact ⟨[], (List.append_nil _).symm⟩
    obtain ⟨added, hadded⟩ := hstep
    exact ⟨added ++ later, hlater.trans (by rw [hadded, List.append_assoc])⟩

/-- A register that is there stays, whatever is asked for. -/
theorem quantumRegister_serveAll {name : String} {q : QuantumRegister}
    (h : m.quantumRegister name = .ok q) (requests : List (Request R)) :
    (m.serveAll requests).quantumRegister name = .ok q := by
  obtain ⟨added, hadded⟩ := m.quantum_of_serveAll requests
  exact quantumRegister_append h hadded

theorem qubit_serveAll {name : String} {index bit : Nat} (h : m.qubit name index = .ok bit)
    (requests : List (Request R)) : (m.serveAll requests).qubit name index = .ok bit := by
  obtain ⟨r, hr, hindex, rfl⟩ := qubit_eq_ok.mp h
  exact qubit_eq_ok.mpr ⟨r, quantumRegister_serveAll hr requests, hindex, rfl⟩

end Quantum

/-! ## What a machine shows -/

section Shows

variable [RealScalar R] {offset width outcome : Nat}

/-- A machine all of whose entries carry an outcome in some of its bits. -/
structure Shows (m : Machine R) (offset width outcome : Nat) : Prop where
  laid : m.Laid
  within : offset + width ≤ m.qubits
  carries : m.vector.Carries offset width outcome

/-- What is shown does not depend on the draws. -/
theorem Shows.with_draws (h : m.Shows offset width outcome) (fresh : Nat → R) :
    ({ m with draws := fresh } : Machine R).Shows offset width outcome where
  laid := ⟨h.laid.size, h.laid.tiled, h.laid.distinct, h.laid.quantum_width,
    h.laid.classical_width, h.laid.qubits_le, h.laid.limit_le⟩
  within := h.within
  carries := h.carries

/-- **A granted request keeps what is shown**, unless it applies a gate to the bits. -/
theorem Shows.respond (h : m.Shows offset width outcome) {request : Request R}
    (havoids : request.Avoids (block offset width)) (hr : m.respond request = .ok after) :
    after.Shows offset width outcome := by
  obtain ⟨hlaid, -, -⟩ := of_respond_ok h.laid hr
  obtain ⟨added, hadded⟩ := quantum_of_respond_ok hr
  refine ⟨hlaid, ?_, ?_⟩
  · rw [qubits, hadded, QuantumRegister.totalWidth_append]
    exact Nat.le_add_right_of_le h.within
  · cases request with
    | declareQuantum name width =>
      obtain ⟨-, -, fresh, hfresh, rfl⟩ := declareQuantum_eq_ok.mp hr
      exact h.carries.tensor h.laid.size h.within hfresh
    | declareClassical name width =>
      obtain ⟨-, rfl⟩ := declareClassical_eq_ok.mp hr
      exact h.carries
    | apply gate targets =>
      obtain ⟨-, -, operator, -, -, rfl⟩ := apply_eq_ok.mp hr
      exact h.carries.applyOnTargets havoids _
    | measure source target =>
      obtain ⟨q, c, found, vector, -, -, -, hv, rfl⟩ := measure_eq_ok.mp hr
      exact h.carries.of_measure hv
    | measureBit source i target j =>
      obtain ⟨bit, c, found, vector, -, -, -, hv, rfl⟩ := measureBit_eq_ok.mp hr
      exact h.carries.of_measure hv
    | resetQuantum name =>
      obtain ⟨r, vector, -, hv, rfl⟩ := resetQuantum_eq_ok.mp hr
      exact h.carries.of_reset hv
    | resetQubit name index =>
      obtain ⟨bit, vector, -, hv, rfl⟩ := resetQubit_eq_ok.mp hr
      exact h.carries.of_reset hv
    | resetClassical name =>
      obtain ⟨r, -, rfl⟩ := resetClassical_eq_ok.mp hr
      exact h.carries
    | resetClassicalBit name index =>
      obtain ⟨r, -, -, rfl⟩ := resetClassicalBit_eq_ok.mp hr
      exact h.carries

/-- **A history keeps what is shown.** -/
theorem Shows.serveAll {requests : List (Request R)} (h : m.Shows offset width outcome)
    (havoids : ∀ request ∈ requests, request.Avoids (block offset width)) :
    (m.serveAll requests).Shows offset width outcome := by
  induction requests generalizing m with
  | nil => exact h
  | cons request rest ih =>
    obtain ⟨hfirst, hrest⟩ := List.forall_mem_cons.mp havoids
    have hstep : (m.serve request).Shows offset width outcome := by
      unfold serve
      cases hr : m.respond request with
      | ok next => exact h.respond hfirst hr
      | error fault => exact h
    exact ih hstep hrest

/-- A measurement leaves a machine that shows its outcome. -/
theorem shows_of_measure (hm : m.Laid) {u : R} {vector : StateVector (Amplitude R)}
    (hwithin : offset + width ≤ m.qubits)
    (h : m.vector.measure offset width u = .ok ⟨outcome, vector⟩) (hkeeps : m.Keeps after)
    (hvector : after.vector = vector) : after.Shows offset width outcome where
  laid := hkeeps.laid hm
  within := by rwa [qubits, hkeeps.quantum]
  carries := hvector ▸ StateVector.carries_of_measure h

/-- **Measuring a register later** finds what was shown. -/
theorem Shows.measure_later {q : QuantumRegister} (h : m.Shows q.offset q.width outcome)
    {source target : String} (hq : m.quantumRegister source = .ok q) {later : List (Request R)}
    (havoids : ∀ request ∈ later, request.Avoids q.positions)
    (hfinal : (m.serveAll later).measure source target = .ok after) :
    after.classicalRegister target = .ok ⟨target, bits q.width outcome⟩ := by
  have hlater := h.serveAll havoids
  obtain ⟨q', c, found, vector, hq', hc, -, hv, rfl⟩ := measure_eq_ok.mp hfinal
  obtain rfl := Except.ok.inj ((quantumRegister_serveAll hq later).symm.trans hq')
  rw [hlater.carries.outcome_eq hv]
  exact classicalRegister_written hc _

/-- **Measuring a qubit later** finds what was shown. -/
theorem Shows.measureBit_later {bit i k : Nat} (h : m.Shows bit 1 outcome)
    {source target : String} (hbit : m.qubit source i = .ok bit) {later : List (Request R)}
    (havoids : ∀ request ∈ later, request.Avoids [bit])
    (hfinal : (m.serveAll later).measureBit source i target k = .ok after) :
    ∃ c, after.classicalRegister target = .ok c ∧ c.bits[k]? = some (outcome.testBit 0) := by
  have hlater := h.serveAll havoids
  obtain ⟨bit', c, found, vector, hbit', hc, hk, hv, rfl⟩ := measureBit_eq_ok.mp hfinal
  obtain rfl := Except.ok.inj ((qubit_serveAll hbit later).symm.trans hbit')
  rw [hlater.carries.outcome_eq hv]
  exact ⟨_, classicalRegister_updateClassical (r := c) hc fun _ => rfl, List.getElem?_set_self hk⟩

end Shows

/-! ## Measuring again -/

section Again

variable [RootScalar R] {offset width outcome : Nat}

/-- **Where an outcome is shown and no mass is lost, measuring changes nothing.** -/
theorem Shows.measure_eq (h : m.Shows offset width outcome) (hmass : m.vector.mass = 1)
    (houtcome : outcome < 2 ^ width) (u : R) :
    m.vector.measure offset width u = .ok ⟨outcome, m.vector⟩ :=
  h.carries.measure_eq hmass houtcome (h.laid.checkRange h.within) u

/-- Measuring a register again, into any register of its width. -/
theorem Shows.measure_again {q : QuantumRegister} (h : m.Shows q.offset q.width outcome)
    (hmass : m.vector.mass = 1) (houtcome : outcome < 2 ^ q.width) {source target : String}
    (hq : m.quantumRegister source = .ok q) {c : ClassicalRegister}
    (hc : m.classicalRegister target = .ok c) (hwidth : c.width = q.width) :
    ∃ again, m.measure source target = .ok again ∧
      again.classicalRegister target = .ok ⟨target, bits q.width outcome⟩ ∧
      again.vector = m.vector := by
  have hagain := h.measure_eq hmass houtcome (m.draws m.drawn)
  exact ⟨_, measure_eq_ok.mpr ⟨q, c, outcome, _, hq, hc, hwidth, hagain, rfl⟩,
    classicalRegister_written hc _, rfl⟩

/-- Measuring a qubit again, into any bit. -/
theorem Shows.measureBit_again {bit i k : Nat} (h : m.Shows bit 1 outcome)
    (hmass : m.vector.mass = 1) (houtcome : outcome < 2 ^ 1) {source target : String}
    (hbit : m.qubit source i = .ok bit) {c : ClassicalRegister}
    (hc : m.classicalRegister target = .ok c) (hk : k < c.width) :
    ∃ again, m.measureBit source i target k = .ok again ∧
      (∃ c, again.classicalRegister target = .ok c ∧ c.bits[k]? = some (outcome.testBit 0)) ∧
      again.vector = m.vector := by
  have hagain := h.measure_eq hmass houtcome (m.draws m.drawn)
  exact ⟨_, measureBit_eq_ok.mpr ⟨bit, c, outcome, _, hbit, hc, hk, hagain, rfl⟩,
    ⟨_, classicalRegister_updateClassical (r := c) hc fun _ => rfl, List.getElem?_set_self hk⟩,
    rfl⟩

/-- **Measurement outcomes are stable.** After every history of requests, a measurement of a
register finds a number that every entry which is not zero carries in the bits of the register. As
long as no gate is applied to these bits, every later measurement of the register finds the same
number, whatever else is asked of the machine and whatever is drawn; and measuring once more right
away, into any register of that width, succeeds and leaves the vector as it is. The same holds of
the measurement of a single qubit. -/
theorem outcomes_stable (maxQubits : Nat) (draws : Nat → R) (history : List (Request R)) :
    let m := (initial maxQubits draws).serveAll history
    (∀ source target after, m.measure source target = .ok after →
      ∃ q v, m.quantumRegister source = .ok q ∧ v < 2 ^ q.width ∧
        after.classicalRegister target = .ok ⟨target, bits q.width v⟩ ∧
        (∀ i, after.vector.get i ≠ 0 → field q.offset q.width i = v) ∧
        (∀ fresh later other final, (∀ request ∈ later, request.Avoids q.positions) →
          ({ after with draws := fresh }.serveAll later).measure source other = .ok final →
          final.classicalRegister other = .ok ⟨other, bits q.width v⟩) ∧
        ∀ fresh other c, after.classicalRegister other = .ok c → c.width = q.width →
          ∃ again, { after with draws := fresh }.measure source other = .ok again ∧
            again.classicalRegister other = .ok ⟨other, bits q.width v⟩ ∧
            again.vector = after.vector) ∧
    ∀ source i target j after, m.measureBit source i target j = .ok after →
      ∃ bit b c, m.qubit source i = .ok bit ∧ after.classicalRegister target = .ok c ∧
        c.bits[j]? = some b ∧ (∀ i, after.vector.get i ≠ 0 → i.testBit bit = b) ∧
        (∀ fresh later other k final, (∀ request ∈ later, request.Avoids [bit]) →
          ({ after with draws := fresh }.serveAll later).measureBit source i other k = .ok final →
          ∃ c, final.classicalRegister other = .ok c ∧ c.bits[k]? = some b) ∧
        ∀ fresh other c k, after.classicalRegister other = .ok c → k < c.width →
          ∃ again, { after with draws := fresh }.measureBit source i other k = .ok again ∧
            (∃ c, again.classicalRegister other = .ok c ∧ c.bits[k]? = some b) ∧
            again.vector = after.vector := by
  intro m
  have hlaid : m.Laid := (serveAll_spec (laid_initial maxQubits draws) history).1
  constructor
  · intro source target after h
    obtain ⟨q, c, v, vector, hq, hc, -, hv, hafter⟩ := measure_eq_ok.mp h
    have hvector : after.vector = vector := by rw [hafter]; rfl
    have hshows : after.Shows q.offset q.width v :=
      shows_of_measure hlaid (hlaid.within_of_quantumRegister hq) hv (keeps_of_measure hlaid h)
        hvector
    have hmass : after.vector.mass = 1 := hvector ▸ StateVector.mass_of_measure hv
    have hlt := (StateVector.of_measure_ok hv).1
    have hsource : after.quantumRegister source = .ok q := by
      rw [hafter]
      exact hq
    refine ⟨q, v, hq, hlt, ?_, hshows.carries, ?_, ?_⟩
    · rw [hafter]
      exact classicalRegister_written hc _
    · exact fun fresh later other final havoids hfinal =>
        (hshows.with_draws fresh).measure_later hsource havoids hfinal
    · exact fun fresh other c' hc' hwidth =>
        (hshows.with_draws fresh).measure_again hmass hlt hsource hc' hwidth
  · intro source i target j after h
    obtain ⟨bit, c, v, vector, hbit, hc, hj, hv, hafter⟩ := measureBit_eq_ok.mp h
    have hvector : after.vector = vector := by rw [hafter]; rfl
    have hshows : after.Shows bit 1 v :=
      shows_of_measure hlaid (hlaid.qubit_lt hbit) hv (keeps_of_measureBit h) hvector
    have hmass : after.vector.mass = 1 := hvector ▸ StateVector.mass_of_measure hv
    have hlt := (StateVector.of_measure_ok hv).1
    have hsource : after.qubit source i = .ok bit := by
      rw [hafter]
      exact hbit
    refine ⟨bit, v.testBit 0, c.setBit j (v.testBit 0), hbit, ?_, ?_, ?_, ?_, ?_⟩
    · rw [hafter]
      exact classicalRegister_updateClassical hc fun _ => rfl
    · exact List.getElem?_set_self hj
    · intro k hk
      have hfield := testBit_field bit 1 k 0
      rw [hshows.carries k hk] at hfield
      rw [Bool.eq_iff_iff, hfield]
      simp
    · exact fun fresh later other k final havoids hfinal =>
        (hshows.with_draws fresh).measureBit_later hsource havoids hfinal
    · exact fun fresh other c' k hc' hk =>
        (hshows.with_draws fresh).measureBit_again hmass hlt hsource hc' hk

end Again

/-! ## A flipped qubit -/

/-- A qubit that is flipped, and a bit to measure it into. -/
noncomputable def flippedHistory : List (Request ℝ) :=
  [.declareQuantum "q" 1, .declareClassical "c" 1, .apply Gate.pauliX [0]]

/-- The machine after the flip, the bit flip being a matrix that acts on the vector of `q`. -/
theorem serveAll_flippedHistory : (initial 24 fun _ => (0 : ℝ)).serveAll flippedHistory =
    ⟨⟨Kernel.applyOnTargets #[1 * 1, 0 * 1] #[0, 1, 1, 0] [0]⟩, [⟨"q", 0, 1⟩], [⟨"c", [false]⟩],
      fun _ => 0, 0, 24⟩ := rfl

theorem get_flippedHistory {i : Nat} (hi : i < 2) :
    ((initial 24 fun _ => (0 : ℝ)).serveAll flippedHistory).vector.get i =
      if i = 1 then 1 else 0 := by
  rw [serveAll_flippedHistory]
  refine (Kernel.entry_applyOnTargets #[1 * 1, (0 : Amplitude ℝ) * 1] #[0, 1, 1, 0] [0] hi).trans ?_
  interval_cases i
  · simp [Finset.sum_range_succ, gather, patch, clear, mask, without, spread, Kernel.entry]
  · simp [Finset.sum_range_succ, gather, patch, clear, mask, without, spread, Kernel.entry]

/-- All the mass is where the flip has put it. -/
theorem measure_flippedHistory :
    let m := (initial 24 fun _ => (0 : ℝ)).serveAll flippedHistory
    m.vector.measure 0 1 (m.draws m.drawn) = .ok ⟨1, m.vector⟩ := by
  intro m
  have hshows : m.Shows 0 1 1 := by
    refine ⟨(serveAll_spec (laid_initial 24 fun _ => (0 : ℝ)) flippedHistory).1, Nat.le_refl 1,
      fun i hi => ?_⟩
    rw [get_flippedHistory (StateVector.lt_of_get_ne_zero hi)] at hi
    obtain rfl : i = 1 := by_contra fun hne => hi (if_neg hne)
    rfl
  have hmass : m.vector.mass = 1 := by
    rw [StateVector.mass_eq_sum, show m.vector.size = 2 from rfl, Finset.sum_range_succ,
      Finset.sum_range_one, get_flippedHistory (by decide), get_flippedHistory (by decide)]
    simp [Amplitude.mass_zero, Amplitude.mass_one]
  exact hshows.measure_eq hmass (by decide) _

/-- The flipped qubit is found set, as a register and as a qubit, and once more right away. Another
register that is declared, flipped and measured does not change that, nor does a reset of the
classical register. -/
theorem outcomes_stable_flipped :
    let m := (initial 24 fun _ => (0 : ℝ)).serveAll flippedHistory
    let later : List (Request ℝ) := [.declareQuantum "r" 1, .apply Gate.pauliX [1],
      .measure "r" "c", .resetClassical "c"]
    (∃ after, m.measure "q" "c" = .ok after ∧ after.classicalRegister "c" = .ok ⟨"c", [true]⟩ ∧
      (∀ fresh final,
        ({ after with draws := fresh }.serveAll later).measure "q" "c" = .ok final →
        final.classicalRegister "c" = .ok ⟨"c", [true]⟩) ∧
      ∃ again, { after with draws := fun _ => 1 / 2 }.measure "q" "c" = .ok again ∧
        again.vector = after.vector) ∧
    ∃ after, m.measureBit "q" 0 "c" 0 = .ok after ∧
      ∀ fresh final,
        ({ after with draws := fresh }.serveAll later).measureBit "q" 0 "c" 0 = .ok final →
        ∃ c, final.classicalRegister "c" = .ok c ∧ c.bits[0]? = some true := by
  intro m later
  obtain ⟨hregister, hbit⟩ := outcomes_stable 24 (fun _ => (0 : ℝ)) flippedHistory
  have hmeasured : m.vector.measure 0 1 (m.draws m.drawn) = .ok ⟨1, m.vector⟩ :=
    measure_flippedHistory
  have hone : m.vector.get 1 ≠ 0 := by
    rw [get_flippedHistory (by decide)]
    exact fun h => one_ne_zero (congrArg Amplitude.re h)
  constructor
  · have h : m.measure "q" "c" = .ok _ :=
      measure_eq_ok.mpr ⟨⟨"q", 0, 1⟩, ⟨"c", [false]⟩, 1, _, rfl, rfl, rfl, hmeasured, rfl⟩
    obtain ⟨q, v, hq, -, hwritten, hcarries, hlater, hagain⟩ := hregister "q" "c" _ h
    obtain rfl : ⟨"q", 0, 1⟩ = q := Except.ok.inj hq
    obtain rfl : 1 = v := hcarries 1 hone
    obtain ⟨again, hsuccess, -, hvector⟩ := hagain (fun _ => 1 / 2) "c" _ hwritten rfl
    refine ⟨_, h, hwritten, fun fresh final hfinal => hlater fresh later "c" final ?_ hfinal,
      again, hsuccess, hvector⟩
    simp [later, Request.Avoids, QuantumRegister.positions]
  · have h : m.measureBit "q" 0 "c" 0 = .ok _ :=
      measureBit_eq_ok.mpr
        ⟨0, ⟨"c", [false]⟩, 1, _, rfl, rfl, Nat.zero_lt_one, hmeasured, rfl⟩
    obtain ⟨bit, b, c, hq, -, -, hcarries, hlater, -⟩ := hbit "q" 0 "c" 0 _ h
    obtain rfl : 0 = bit := Except.ok.inj hq
    obtain rfl : true = b := hcarries 1 hone
    refine ⟨_, h, fun fresh final hfinal => hlater fresh later "c" 0 final ?_ hfinal⟩
    simp [later, Request.Avoids]

end Machine

end OpenQasm
