import Mathlib.Algebra.BigOperators.Group.List.Basic
import OpenQasm.Proofs.Layout

/-!
# Sequences of machine operations

A machine is used through the requests below, in any order and with any arguments. One that fails
leaves the machine as it is (`Machine.serve`), and the next is served all the same. What a history
of requests leads to is said without running it: the registers are those whose declaration was
granted, with the widths that were asked for, and everything else follows from their widths.

* `of_respond_ok`: what one granted request does to the registers, and that the layout stays sound.
* `serveAll_spec`: the same of a whole history, by induction on it.
* `QuantumRegister.Tiled.flatMap_positions`: registers side by side take each bit once.
* **`Machine.represented_after`**: the invariant of every reachable machine.
-/

namespace OpenQasm

/-- An operation on a machine. -/
inductive Request (R : Type) where
  | declareQuantum (name : String) (width : Nat)
  | declareClassical (name : String) (width : Nat)
  | apply (gate : Gate (Amplitude R)) (targets : List Nat)
  | measure (source target : String)
  | measureBit (source : String) (sourceIndex : Nat) (target : String) (targetIndex : Nat)
  | resetQuantum (name : String)
  | resetQubit (name : String) (index : Nat)
  | resetClassical (name : String)
  | resetClassicalBit (name : String) (index : Nat)

/-- The register of a kind that a request declares, with its width. -/
def Request.declares {R : Type} : Request R → RegisterKind → List (String × Nat)
  | .declareQuantum name width, .quantum => [(name, width)]
  | .declareClassical name width, .classical => [(name, width)]
  | _, _ => []

/-! ## Registers side by side -/

namespace QuantumRegister

theorem totalWidth_eq_sum (rs : List QuantumRegister) :
    totalWidth rs = (rs.map (·.width)).sum := by
  induction rs with
  | nil => rfl
  | cons r rest ih => simp [totalWidth, ih]

/-- The offset of a register is the width of those before it. -/
theorem Tiled.offset_eq {before : List QuantumRegister} {r : QuantumRegister}
    {rest : List QuantumRegister} {offset : Nat} (h : Tiled offset (before ++ r :: rest)) :
    r.offset = offset + totalWidth before := by
  induction before generalizing offset with
  | nil => exact h.1
  | cons s before ih =>
    rw [ih h.2, totalWidth, Nat.add_assoc]

/-- **Registers side by side take each bit once**: their bits, in the order of declaration, count
upwards from the first. -/
theorem Tiled.flatMap_positions {rs : List QuantumRegister} {offset : Nat} (h : Tiled offset rs) :
    rs.flatMap positions = List.range' offset (totalWidth rs) := by
  induction rs generalizing offset with
  | nil => rfl
  | cons r rest ih =>
    obtain ⟨rfl, hrest⟩ := h
    rw [List.flatMap_cons, ih hrest, totalWidth, positions, ← List.range'_eq_map_range,
      List.range'_append_1]

end QuantumRegister

namespace Machine

variable {R : Type}

/-- The registers of a kind, with their widths. -/
def registers (m : Machine R) : RegisterKind → List (String × Nat)
  | .quantum => m.quantum.map fun r => (r.name, r.width)
  | .classical => m.classical.map fun r => (r.name, r.width)

variable [Scalar R]

/-- What a machine answers to a request. -/
def respond (m : Machine R) : Request R → Except RunFault (Machine R)
  | .declareQuantum name width => m.declareQuantum name width
  | .declareClassical name width => m.declareClassical name width
  | .apply gate targets => m.apply gate targets
  | .measure source target => m.measure source target
  | .measureBit source sourceIndex target targetIndex =>
    m.measureBit source sourceIndex target targetIndex
  | .resetQuantum name => m.resetQuantum name
  | .resetQubit name index => m.resetQubit name index
  | .resetClassical name => m.resetClassical name
  | .resetClassicalBit name index => m.resetClassicalBit name index

/-- The machine after a request, whether it is granted or not. -/
def serve (m : Machine R) (request : Request R) : Machine R :=
  match m.respond request with
  | .ok after => after
  | .error _ => m

/-- The machine after a history of requests. -/
def serveAll (m : Machine R) (requests : List (Request R)) : Machine R := requests.foldl serve m

/-- The registers of a kind that a history declares: those of the requests that are granted. -/
def granted (kind : RegisterKind) : Machine R → List (Request R) → List (String × Nat)
  | _, [] => []
  | m, request :: rest =>
    (if (m.respond request).isOk then request.declares kind else []) ++
      granted kind (m.serve request) rest

variable {m after : Machine R}

/-! ## One request -/

theorem keeps_of_apply {gate : Gate (Amplitude R)} {targets : List Nat}
    (h : m.apply gate targets = .ok after) : m.Keeps after := by
  obtain ⟨-, -, operator, -, -, rfl⟩ := apply_eq_ok.mp h
  exact keeps_vector (Kernel.size_applyOnTargets ..)

omit [Scalar R] in
theorem Keeps.registers_eq (h : m.Keeps after) (kind : RegisterKind) :
    after.registers kind = m.registers kind := by
  cases kind with
  | quantum => rw [registers, registers, h.quantum]
  | classical => exact h.classical

/-- **A granted request** adds the register that it declares, if it declares one, and keeps the
machine laid out. -/
theorem of_respond_ok (hm : m.Laid) {request : Request R} (h : m.respond request = .ok after) :
    after.Laid ∧ after.limit = m.limit ∧
      ∀ kind, after.registers kind = m.registers kind ++ request.declares kind := by
  have hkeeps : m.Keeps after → (∀ kind, request.declares kind = []) →
      after.Laid ∧ after.limit = m.limit ∧
        ∀ kind, after.registers kind = m.registers kind ++ request.declares kind := by
    intro hk hnone
    refine ⟨hk.laid hm, hk.limit, fun kind => ?_⟩
    rw [hnone, List.append_nil, hk.registers_eq]
  cases request with
  | declareQuantum name width =>
    obtain ⟨hquantum, hclassical⟩ := registers_of_declareQuantum h
    refine ⟨laid_of_declareQuantum hm h, limit_of_declareQuantum h, fun kind => ?_⟩
    cases kind <;> simp [registers, Request.declares, hquantum, hclassical]
  | declareClassical name width =>
    obtain ⟨hquantum, hclassical⟩ := registers_of_declareClassical h
    refine ⟨laid_of_declareClassical hm h, limit_of_declareClassical h, fun kind => ?_⟩
    cases kind <;>
      simp [registers, Request.declares, hquantum, hclassical, ClassicalRegister.width]
  | apply gate targets => exact hkeeps (keeps_of_apply h) fun kind => rfl
  | measure source target => exact hkeeps (keeps_of_measure hm h) fun kind => rfl
  | measureBit source i target j => exact hkeeps (keeps_of_measureBit h) fun kind => rfl
  | resetQuantum name => exact hkeeps (keeps_of_resetQuantum h) fun kind => rfl
  | resetQubit name index => exact hkeeps (keeps_of_resetQubit h) fun kind => rfl
  | resetClassical name => exact hkeeps (keeps_of_resetClassical h) fun kind => rfl
  | resetClassicalBit name index => exact hkeeps (keeps_of_resetClassicalBit h) fun kind => rfl

/-- A request, granted or not. -/
theorem serve_spec (hm : m.Laid) (request : Request R) :
    (m.serve request).Laid ∧ (m.serve request).limit = m.limit ∧
      ∀ kind, (m.serve request).registers kind = m.registers kind ++
        if (m.respond request).isOk then request.declares kind else [] := by
  unfold serve
  cases h : m.respond request with
  | ok next =>
    obtain ⟨hlaid, hlimit, hregisters⟩ := of_respond_ok hm h
    exact ⟨hlaid, hlimit, fun kind => by simp [hregisters, Except.isOk, Except.toBool]⟩
  | error fault => exact ⟨hm, rfl, fun kind => by simp [Except.isOk, Except.toBool]⟩

/-! ## Whole histories -/

/-- **A history** keeps the machine laid out, and adds the registers that were granted. -/
theorem serveAll_spec (hm : m.Laid) (requests : List (Request R)) :
    (m.serveAll requests).Laid ∧ (m.serveAll requests).limit = m.limit ∧
      ∀ kind, (m.serveAll requests).registers kind =
        m.registers kind ++ granted kind m requests := by
  induction requests generalizing m with
  | nil => exact ⟨hm, rfl, fun kind => (List.append_nil _).symm⟩
  | cons request rest ih =>
    obtain ⟨hlaid, hlimit, hregisters⟩ := serve_spec hm request
    obtain ⟨hlast, hlimit', hregisters'⟩ := ih hlaid
    refine ⟨hlast, hlimit'.trans hlimit, fun kind => ?_⟩
    rw [granted, ← List.append_assoc, ← hregisters]
    exact hregisters' kind

/-- **What every history of requests leads to**, granted or not, whatever the limit and the draws
are. The vector has an amplitude for each state of all qubits; a quantum register starts where those
declared before it end, so that together they take each bit once; no register is empty and no name
is used twice; the registers are those that were granted, with the widths asked for, a bit for each
unit of the width of a classical one; and the qubits stay within the limit. -/
theorem represented_after (maxQubits : Nat) (draws : Nat → R) (requests : List (Request R)) :
    let m := (initial maxQubits draws).serveAll requests
    let total := (m.quantum.map (·.width)).sum
    m.vector.size = 2 ^ total ∧
      (∀ before r rest, m.quantum = before ++ r :: rest →
        r.offset = (before.map (·.width)).sum) ∧
      m.quantum.flatMap QuantumRegister.positions = List.range total ∧
      (∀ r ∈ m.quantum, 1 ≤ r.width) ∧ (∀ r ∈ m.classical, 1 ≤ r.width) ∧
      (m.quantum.map (·.name) ++ m.classical.map (·.name)).Nodup ∧
      (m.quantum.map fun r => (r.name, r.width)) =
        granted .quantum (initial maxQubits draws) requests ∧
      (m.classical.map fun r => (r.name, r.bits.length)) =
        granted .classical (initial maxQubits draws) requests ∧
      (∀ r ∈ m.classical, ∀ b ∈ r.bits, b.toNat = 0 ∨ b.toNat = 1) ∧
      total ≤ min maxQubits StateVector.maxQubits := by
  intro m total
  obtain ⟨hlaid, hlimit, hregisters⟩ := serveAll_spec (laid_initial maxQubits draws) requests
  have htotal : m.qubits = total := QuantumRegister.totalWidth_eq_sum m.quantum
  refine ⟨?_, ?_, ?_, ?_, ?_, hlaid.distinct, hregisters .quantum, hregisters .classical, ?_, ?_⟩
  · rw [← htotal]
    exact hlaid.size
  · intro before r rest hsplit
    have htiled := hlaid.tiled
    rw [show (initial maxQubits draws).serveAll requests = m from rfl, hsplit] at htiled
    rw [htiled.offset_eq, Nat.zero_add, QuantumRegister.totalWidth_eq_sum]
  · rw [List.range_eq_range', ← htotal]
    exact hlaid.tiled.flatMap_positions
  · exact fun r hr => Nat.one_le_iff_ne_zero.mpr (hlaid.quantum_width r hr)
  · exact fun r hr => Nat.one_le_iff_ne_zero.mpr (hlaid.classical_width r hr)
  · intro r _ b _
    cases b <;> simp
  · rw [← htotal]
    exact hlaid.qubits_le.trans hlimit.le

end Machine

end OpenQasm
