import OpenQasm.Proofs.History
import OpenQasm.Proofs.Measuring
import OpenQasm.Proofs.Placement
import OpenQasm.Proofs.Words
import OpenQasm.Quantum.Guarded
import OpenQasm.Random.ChaCha

/-!
# Requests that no guard stops

Every machine that requests lead to is laid out (`serveAll_spec`): its registers lie side by side in
no more than 58 bits and its vector has an amplitude for each of their states. On such a machine the
kernels are called with arguments for which no guard stops them, whatever the next request asks for:
a name is looked up and an index compared before an offset is added to it, targets are compared with
the qubits and with each other, and a width is compared with what is left of the limit.

* `apply_eq`, `measureRegister_eq`, `resetQubit_eq`, ...: one request, guarded.
* `respond_eq`: each of them.
* **`Machine.requests_in_bounds`**: after any history.
-/

namespace OpenQasm

open BitIndex

namespace Guarded

variable {R : Type}

/-- What a machine answers to a request, with its steps on words guarded. -/
def respond [Scalar R] (m : Machine R) : Request R → Guarded RunFault (Machine R)
  | .declareQuantum name width => declareQuantum m name width
  | .declareClassical name width => ofExcept (m.declareClassical name width)
  | .apply gate targets => apply m gate targets
  | .measure source target => measureRegister m source target
  | .measureBit source sourceIndex target targetIndex =>
    measureBit m source sourceIndex target targetIndex
  | .resetQuantum name => resetQuantum m name
  | .resetQubit name index => resetQubit m name index
  | .resetClassical name => ofExcept (m.resetClassical name)
  | .resetClassicalBit name index => resetClassicalBit m name index

/-! ## Machines that are laid out -/

variable {m : Machine R}

theorem algebra_ofExcept {α : Type} (x : Except AlgebraError α) :
    algebra (ofExcept x) = ofExcept (x.mapError .algebra) := by
  cases x <;> rfl

theorem qubits_lt (hm : m.Laid) : m.qubits < 64 := by
  have hle : m.qubits ≤ StateVector.maxQubits := hm.qubits_le.trans hm.limit_le
  rw [StateVector.maxQubits] at hle
  omega

/-- The widths are added up within a word. -/
theorem foldlM_add {rs : List QuantumRegister} {total : Nat}
    (h : total + QuantumRegister.totalWidth rs < 2 ^ 64) :
    (rs.foldlM (fun total r => add total r.width) total : Guarded RunFault Nat) =
      .ok (total + QuantumRegister.totalWidth rs) := by
  induction rs generalizing total with
  | nil => rfl
  | cons r rest ih =>
    rw [QuantumRegister.totalWidth, ← Nat.add_assoc] at h ⊢
    rw [List.foldlM_cons, bind_of_eq_ok (add_eq (Nat.le_add_right _ _ |>.trans_lt h)), ih h]

theorem qubits_eq (hm : m.Laid) : Guarded.qubits m = .ok m.qubits := by
  have hlt := qubits_lt hm
  rw [Machine.qubits] at hlt
  rw [Guarded.qubits, foldlM_add (by omega), Nat.zero_add, Machine.qubits]

/-- The bits of a machine may be read. -/
theorem within (hm : m.Laid) {offset width : Nat} (h : offset + width ≤ m.qubits) :
    Within m.vector m.qubits offset width := ⟨hm.size, qubits_lt hm, h⟩

theorem qubit_eq (hm : m.Laid) (name : String) (index : Nat) :
    Guarded.qubit m name index = ofExcept (m.qubit name index) := by
  refine bind_congr rfl fun r hr => bind_congr rfl fun _ hindex => ?_
  have hwithin := hm.within_of_quantumRegister hr
  have hinside := Machine.checkIndex_eq_ok.mp hindex
  have hlt := qubits_lt hm
  rw [add_eq (by omega)]
  rfl

/-- Targets that may be acted on are bits of a word, and no more than it has. -/
theorem inWord (hm : m.Laid) {targets : List Nat}
    (h : Machine.checkTargets m.qubits [] targets = .ok ()) : InWord targets := by
  obtain ⟨hlt, hd⟩ := Machine.checkTargets_eq_ok.mp h
  have hle := length_le_of_nodup hd fun t ht => (hlt t ht).1
  exact ⟨hle.trans_lt (qubits_lt hm), fun t ht => (hlt t ht).1.trans (qubits_lt hm)⟩

/-- An operator of the right size on such targets reads inside the matrix and the vector. -/
theorem inside_of_checkTargets (hm : m.Laid) {targets : List Nat}
    (h : Machine.checkTargets m.qubits [] targets = .ok ()) {operator : SquareMatrix (Amplitude R)}
    (hdim : operator.dim = 2 ^ targets.length) :
    Inside m.vector.entries operator.entries targets := by
  have hlt : ∀ t ∈ targets, t < m.qubits := fun t ht => ((Machine.checkTargets_eq_ok.mp h).1 t ht).1
  refine ⟨inWord hm h, fun i _ => ?_, fun i hi j _ => ?_⟩
  · rw [operator.size_entries, hdim]
    exact Nat.mul_le_mul_right _ (gather_lt targets i)
  · have hsize : m.vector.entries.size = 2 ^ m.qubits := hm.size
    rw [hsize] at hi ⊢
    exact patch_lt hlt hi j

/-! ## One request -/

theorem setBit_eq {name : String} {c : ClassicalRegister} (hc : m.classicalRegister name = .ok c)
    {index : Nat} (h : index < c.width) (b : Bool) :
    setBit m c index b = .ok (m.updateClassical name (·.setBit index b)) := by
  have hname : c.name = name := by
    simpa using List.find?_some (Machine.classicalRegister_eq_ok.mp hc)
  rw [setBit, bind_of_eq_ok (inside_eq h), hname]
  rfl

theorem resetClassicalBit_eq (name : String) (index : Nat) :
    Guarded.resetClassicalBit m name index = ofExcept (m.resetClassicalBit name index) :=
  bind_congr rfl fun _ hc => bind_congr rfl fun _ hindex =>
    setBit_eq hc (Machine.checkIndex_eq_ok.mp hindex) false

variable [Scalar R]

theorem declareQuantum_eq (hm : m.Laid) (name : String) (width : Nat) :
    Guarded.declareQuantum m name width = ofExcept (m.declareQuantum name width) := by
  refine bind_congr rfl fun _ _ => ?_
  rw [bind_of_eq_ok (qubits_eq hm)]
  dsimp only
  by_cases hlimit : m.limit < min (m.qubits + width) Machine.countLimit
  · rw [if_pos hlimit, if_pos hlimit]
    rfl
  · rw [if_neg hlimit, if_neg hlimit, zeroState_eq, algebra_ofExcept]
    refine bind_congr rfl fun fresh hfresh => ?_
    have hsize : fresh.size = 2 ^ width :=
      StateVector.size_of_zeroState (mapError_eq_ok.mp hfresh)
    have hle : width + m.qubits < 64 := by
      have hmax := hm.limit_le
      rw [StateVector.maxQubits] at hmax
      rw [Machine.countLimit, UInt64.size] at hlimit
      omega
    have hword : fresh.size * m.vector.size < 2 ^ 64 := by
      rw [hsize, hm.size, ← Nat.pow_add]
      exact Nat.pow_lt_pow_right Nat.one_lt_two hle
    rw [bind_of_eq_ok (tensor_eq hword)]
    rfl

theorem resetBits_eq (hm : m.Laid) {offset width : Nat} (h : offset + width ≤ m.qubits) :
    resetBits m offset width = ofExcept (do
      let vector ← (m.vector.reset offset width).mapError .algebra
      return { m with vector }) := by
  rw [resetBits, (within hm h).reset_eq, algebra_ofExcept]
  exact bind_congr rfl fun _ _ => rfl

theorem resetQuantum_eq (hm : m.Laid) (name : String) :
    Guarded.resetQuantum m name = ofExcept (m.resetQuantum name) :=
  bind_congr rfl fun _ hr => resetBits_eq hm (hm.within_of_quantumRegister hr)

theorem resetQubit_eq (hm : m.Laid) (name : String) (index : Nat) :
    Guarded.resetQubit m name index = ofExcept (m.resetQubit name index) :=
  bind_congr (qubit_eq hm name index) fun _ hbit => resetBits_eq hm (hm.qubit_lt hbit)

theorem measureBits_eq (hm : m.Laid) {offset width : Nat} (h : offset + width ≤ m.qubits) :
    Guarded.measureBits m offset width = ofExcept ((m.measureBits offset width).map fun found =>
      (bits width found.1, found.2)) := by
  rw [Guarded.measureBits, (within hm h).measure_eq, algebra_ofExcept, Machine.measureBits]
  cases m.vector.measure offset width (m.draws m.drawn) <;> rfl

theorem measureRegister_eq (hm : m.Laid) (source target : String) :
    measureRegister m source target = ofExcept (m.measure source target) := by
  refine bind_congr rfl fun q hq => bind_congr rfl fun c _ => ?_
  split
  · rfl
  · rw [measureBits_eq hm (hm.within_of_quantumRegister hq)]
    cases m.measureBits q.offset q.width <;> rfl

theorem measureBit_eq (hm : m.Laid) (source : String) (i : Nat) (target : String) (j : Nat) :
    Guarded.measureBit m source i target j = ofExcept (m.measureBit source i target j) := by
  refine bind_congr (qubit_eq hm source i) fun bit hbit => bind_congr rfl fun c hc =>
    bind_congr rfl fun _ hindex => ?_
  rw [measureBits_eq hm (hm.qubit_lt hbit)]
  cases hmeasured : m.measureBits bit 1 with
  | error e => rfl
  | ok found =>
    obtain ⟨vector, -, hafter⟩ := Machine.measureBits_eq_ok.mp hmeasured
    have hkept : found.2.classicalRegister target = .ok c := by
      rw [hafter]
      exact hc
    exact setBit_eq hkept (Machine.checkIndex_eq_ok.mp hindex) (found.1.testBit 0)

theorem apply_eq (hm : m.Laid) (gate : Gate (Amplitude R)) (targets : List Nat) :
    Guarded.apply m gate targets = ofExcept (m.apply gate targets) := by
  rw [Guarded.apply, bind_of_eq_ok (qubits_eq hm)]
  refine bind_congr rfl fun _ htargets => bind_congr rfl fun operator _ => ?_
  rw [bind_of_eq_ok (shiftLeft_one (inWord hm htargets).length)]
  dsimp only
  by_cases hdim : operator.dim ≠ 2 ^ targets.length
  · rw [if_pos hdim, Nat.pow_eq, if_pos hdim]
    rfl
  · have hinside := inside_of_checkTargets hm htargets (not_ne_iff.mp hdim)
    rw [if_neg hdim, Nat.pow_eq, if_neg hdim, bind_of_eq_ok (applyOnTargets_eq hinside)]
    rfl

/-- **One request on a machine that is laid out**, guarded, is the request. -/
theorem respond_eq (hm : m.Laid) (request : Request R) :
    respond m request = ofExcept (m.respond request) := by
  cases request with
  | declareQuantum name width => exact declareQuantum_eq hm name width
  | declareClassical name width => rfl
  | apply gate targets => exact apply_eq hm gate targets
  | measure source target => exact measureRegister_eq hm source target
  | measureBit source i target j => exact measureBit_eq hm source i target j
  | resetQuantum name => exact resetQuantum_eq hm name
  | resetQubit name index => exact resetQubit_eq hm name index
  | resetClassical name => rfl
  | resetClassicalBit name index => exact resetClassicalBit_eq name index

end Guarded

namespace Machine

variable {R : Type} [Scalar R]

/-- **No request leads out of bounds**, after any history of requests, granted or not, whatever
names, indices, widths and targets they ask for.

* The next request is answered as if its steps were not guarded: no sum, product, shift, index,
  slice or range on the way is one that a guard stops at.
* The qubits are no more than 58, the vector has an amplitude for each of their states, and each
  register lies within them.
* When an operator is applied, all that is read lies inside its matrix and the vector. -/
theorem requests_in_bounds (maxQubits : Nat) (draws : Nat → R) (history : List (Request R))
    (request : Request R) :
    let m := (initial maxQubits draws).serveAll history
    Guarded.respond m request = (m.respond request).mapError .fault ∧
      (∀ hazard, Guarded.respond m request ≠ .error (.hazard hazard)) ∧
      m.qubits ≤ StateVector.maxQubits ∧ m.vector.size = 2 ^ m.qubits ∧
      (∀ r ∈ m.quantum, r.offset + r.width ≤ m.qubits) ∧
      ∀ gate targets after, m.apply gate targets = .ok after → ∃ operator,
        gate.resolve = .ok operator ∧
          Guarded.Inside m.vector.entries operator.entries targets := by
  intro m
  have hm : m.Laid := (serveAll_spec (laid_initial maxQubits draws) history).1
  refine ⟨Guarded.respond_eq hm request, ?_, hm.qubits_le.trans hm.limit_le, hm.size, ?_, ?_⟩
  · intro hazard
    rw [Guarded.respond_eq hm]
    cases m.respond request <;> nofun
  · intro r hr
    exact hm.within_of_quantumRegister (hm.quantumRegister_of_mem hr)
  · intro gate targets after hafter
    obtain ⟨hlt, hd, operator, hoperator, hdim, -⟩ := apply_eq_ok.mp hafter
    have htargets : checkTargets m.qubits [] targets = .ok () :=
      checkTargets_eq_ok.mpr ⟨fun t ht => ⟨hlt t ht, List.not_mem_nil⟩, hd⟩
    exact ⟨operator, hoperator, Guarded.inside_of_checkTargets hm htargets hdim⟩

/-- Two qubits; a register that is far too wide is refused. -/
def pairHistory : List (Request Float) :=
  [.declareQuantum "q" 2, .declareQuantum "r" (2 ^ 64 - 1)]

/-- Of two qubits, the second controls the first: the indices that are read for an amplitude are
below 4. -/
theorem requests_in_bounds_pair :
    let m := (initial 24 (Random.draw 0)).serveAll pairHistory
    m.quantum = [⟨"q", 0, 2⟩] ∧ m.vector.size = 4 ∧
      (∃ after, m.apply .controlledNot [1, 0] = .ok after) ∧
      ∀ i < m.vector.size, ∀ j < 4, without (mask [1, 0]) i ||| spread [1, 0] j < 4 := by
  intro m
  have hsize : m.vector.size = 4 := by decide +kernel
  have happlied : (m.apply .controlledNot [1, 0]).isOk = true := by decide +kernel
  obtain ⟨after, hafter⟩ := exists_eq_ok happlied
  obtain ⟨-, -, -, -, -, hreads⟩ := requests_in_bounds 24 (Random.draw 0) pairHistory
    (.apply .controlledNot [1, 0])
  obtain ⟨operator, -, hinside⟩ := hreads .controlledNot [1, 0] after hafter
  refine ⟨by decide +kernel, hsize, ⟨after, hafter⟩, fun i hi j hj => ?_⟩
  rw [← hsize]
  exact hinside.entry i hi j hj

end Machine

end OpenQasm
