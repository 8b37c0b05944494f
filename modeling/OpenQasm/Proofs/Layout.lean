import OpenQasm.Proofs.Applying
import OpenQasm.Proofs.Kernel

/-!
# How a machine lays out its registers

`Machine.Laid` is what holds of every machine that a run reaches: the registers have names of their
own and at least one bit, the quantum registers take consecutive bits, and the vector has one
amplitude for each state of all of them, within the limit.

Only declarations change the registers. Every other operation, whether it succeeds or fails, leaves
a machine that `Keeps` them, with a vector of the same size and classical registers of the same
widths (`keeps_operate`).
-/

namespace OpenQasm

/-! ## Consecutive registers -/

namespace QuantumRegister

/-- Registers that take consecutive bits from `offset` on. -/
def Tiled : Nat → List QuantumRegister → Prop
  | _, [] => True
  | offset, r :: rest => r.offset = offset ∧ Tiled (offset + r.width) rest

theorem totalWidth_append (rs ss : List QuantumRegister) :
    totalWidth (rs ++ ss) = totalWidth rs + totalWidth ss := by
  induction rs with
  | nil => rw [List.nil_append, totalWidth, Nat.zero_add]
  | cons r rest ih => rw [List.cons_append, totalWidth, totalWidth, ih, Nat.add_assoc]

/-- A register of some that are consecutive lies within the bits of all of them. -/
theorem Tiled.within : ∀ {rs : List QuantumRegister} {offset : Nat}, Tiled offset rs →
    ∀ {r : QuantumRegister}, r ∈ rs →
      offset ≤ r.offset ∧ r.offset + r.width ≤ offset + totalWidth rs
  | [], _, _, _, hr => absurd hr List.not_mem_nil
  | s :: rest, offset, h, r, hr => by
    rw [totalWidth]
    rcases List.mem_cons.mp hr with rfl | hr
    · have := h.1
      omega
    · have := h.2.within hr
      omega

/-- Consecutive registers share no bit. -/
theorem Tiled.unique {r s : QuantumRegister} {i j : Nat} (hi : i < r.width) (hj : j < s.width)
    (heq : r.offset + i = s.offset + j) : ∀ {rs : List QuantumRegister} {offset : Nat},
    Tiled offset rs → r ∈ rs → s ∈ rs → r = s
  | [], _, _, hr, _ => absurd hr List.not_mem_nil
  | t :: rest, offset, h, hr, hs => by
    rcases List.mem_cons.mp hr with rfl | hrest
    · rcases List.mem_cons.mp hs with rfl | hs
      · rfl
      · have hbelow := h.1
        have habove := (h.2.within hs).1
        omega
    · rcases List.mem_cons.mp hs with rfl | hs
      · have hbelow := h.1
        have habove := (h.2.within hrest).1
        omega
      · exact h.2.unique hi hj heq hrest hs

/-- One more register, on the bits above. -/
theorem Tiled.append : ∀ {rs : List QuantumRegister} {offset : Nat}, Tiled offset rs →
    ∀ {r : QuantumRegister}, r.offset = offset + totalWidth rs → Tiled offset (rs ++ [r])
  | [], _, _, _, hr => ⟨hr, trivial⟩
  | s :: rest, offset, h, r, hr => by
    refine ⟨h.1, h.2.append ?_⟩
    rw [hr, totalWidth, Nat.add_assoc]

end QuantumRegister

namespace BitIndex

/-- A power of two is halved as often as its exponent says. -/
theorem halvings_two_pow : ∀ {fuel n : Nat}, n < fuel → halvings fuel (2 ^ n) = n
  | fuel + 1, 0, _ => rfl
  | fuel + 1, n + 1, h => by
    rw [halvings, Nat.pow_succ, Nat.mul_mod_left, if_pos rfl, Nat.mul_div_cancel _ Nat.zero_lt_two,
      halvings_two_pow (Nat.lt_of_succ_lt_succ h)]

end BitIndex

variable {R : Type}

namespace Machine

/-- The names of all registers. -/
def registerNames (m : Machine R) : List String :=
  m.quantum.map (·.name) ++ m.classical.map (·.name)

/-- What holds of every machine that a run reaches. -/
structure Laid (m : Machine R) : Prop where
  size : m.vector.size = 2 ^ m.qubits
  tiled : QuantumRegister.Tiled 0 m.quantum
  distinct : m.registerNames.Nodup
  quantum_width : ∀ r ∈ m.quantum, r.width ≠ 0
  classical_width : ∀ r ∈ m.classical, r.width ≠ 0
  qubits_le : m.qubits ≤ m.limit
  limit_le : m.limit ≤ StateVector.maxQubits

/-- `after` has the registers of `m`, with a vector of the same size. -/
structure Keeps (m after : Machine R) : Prop where
  size : after.vector.size = m.vector.size
  quantum : after.quantum = m.quantum
  classical : after.classical.map (fun r => (r.name, r.width)) =
    m.classical.map fun r => (r.name, r.width)
  limit : after.limit = m.limit

variable {m next after : Machine R}

theorem Keeps.refl (m : Machine R) : m.Keeps m := ⟨rfl, rfl, rfl, rfl⟩

theorem Keeps.trans (h : m.Keeps next) (h' : next.Keeps after) : m.Keeps after where
  size := h'.size.trans h.size
  quantum := h'.quantum.trans h.quantum
  classical := h'.classical.trans h.classical
  limit := h'.limit.trans h.limit

/-- A machine that keeps the registers keeps the invariant. -/
theorem Keeps.laid (h : m.Keeps after) (hm : m.Laid) : after.Laid := by
  have hqubits : after.qubits = m.qubits := by rw [qubits, h.quantum, qubits]
  have hnames : after.classical.map (·.name) = m.classical.map (·.name) := by
    have := congrArg (List.map Prod.fst) h.classical
    rwa [List.map_map, List.map_map] at this
  refine ⟨?_, ?_, ?_, ?_, ?_, ?_, ?_⟩
  · rw [h.size, hqubits, hm.size]
  · rw [h.quantum]
    exact hm.tiled
  · rw [registerNames, h.quantum, hnames]
    exact hm.distinct
  · rw [h.quantum]
    exact hm.quantum_width
  · intro r hr
    have hmem : (r.name, r.width) ∈ m.classical.map fun r => (r.name, r.width) := by
      rw [← h.classical]
      exact List.mem_map_of_mem hr
    obtain ⟨s, hs, heq⟩ := List.mem_map.mp hmem
    rw [← (Prod.mk.inj heq).2]
    exact hm.classical_width s hs
  · rw [hqubits, h.limit]
    exact hm.qubits_le
  · rw [h.limit]
    exact hm.limit_le

/-- The vector of a laid out machine describes its qubits. -/
theorem Laid.vector_qubits (hm : m.Laid) : m.vector.qubits = m.qubits := by
  have hlimit : m.limit ≤ 58 := hm.limit_le
  have hqubits := hm.qubits_le
  rw [StateVector.qubits, hm.size, BitIndex.trailingZeros, BitIndex.halvings_two_pow (by omega)]

/-! ## Operations that keep the registers -/

/-- Changing the bits of a classical register, not their number. -/
theorem keeps_updateClassical {name : String} {change : ClassicalRegister → ClassicalRegister}
    (hchange : ∀ r ∈ m.classical, r.name = name →
      (change r).name = r.name ∧ (change r).width = r.width) :
    m.Keeps (m.updateClassical name change) := by
  refine ⟨rfl, rfl, ?_, rfl⟩
  rw [updateClassical, List.map_map]
  refine List.map_congr_left fun r hr => ?_
  simp only [Function.comp_apply]
  by_cases hn : r.name = name
  · rw [if_pos (by simpa using hn), (hchange r hr hn).1, (hchange r hr hn).2]
  · rw [if_neg (by simpa using hn)]

theorem keeps_of_resetClassical {name : String} (h : m.resetClassical name = .ok after) :
    m.Keeps after := by
  obtain ⟨-, -, h⟩ := bind_eq_ok.mp h
  obtain rfl := Except.ok.inj h
  refine keeps_updateClassical fun r _ _ => ⟨rfl, ?_⟩
  rw [ClassicalRegister.width, ClassicalRegister.cleared, List.length_map]
  rfl

theorem width_setBit (r : ClassicalRegister) (index : Nat) (b : Bool) :
    (r.setBit index b).width = r.width := by
  rw [ClassicalRegister.width, ClassicalRegister.setBit, List.length_set]
  rfl

theorem keeps_of_resetClassicalBit {name : String} {index : Nat}
    (h : m.resetClassicalBit name index = .ok after) : m.Keeps after := by
  obtain ⟨r, -, h⟩ := bind_eq_ok.mp h
  obtain ⟨-, -, h⟩ := bind_eq_ok.mp h
  obtain rfl := Except.ok.inj h
  exact keeps_updateClassical fun r _ _ => ⟨rfl, width_setBit r index false⟩

/-- A new vector of the same size. -/
theorem keeps_vector {vector : StateVector (Amplitude R)} (h : vector.size = m.vector.size) :
    m.Keeps { m with vector } := ⟨h, rfl, rfl, rfl⟩

variable [Scalar R]

theorem size_collapse (v : StateVector (Amplitude R)) (offset width outcome : Nat) (norm : R) :
    (v.collapse offset width outcome norm).size = v.size := Kernel.size_tabulate _ _

theorem size_of_reset {v w : StateVector (Amplitude R)} {offset width : Nat}
    (h : v.reset offset width = .ok w) : w.size = v.size := by
  obtain ⟨-, -, h⟩ := bind_eq_ok.mp h
  dsimp only at h
  split at h
  · cases h
  · obtain rfl := Except.ok.inj h
    exact size_collapse ..

theorem keeps_of_resetQuantum {name : String} (h : m.resetQuantum name = .ok after) :
    m.Keeps after := by
  obtain ⟨r, -, h⟩ := bind_eq_ok.mp h
  obtain ⟨vector, hv, h⟩ := bind_eq_ok.mp h
  obtain rfl := Except.ok.inj h
  exact keeps_vector (size_of_reset (mapError_eq_ok.mp hv))

theorem keeps_of_resetQubit {name : String} {index : Nat}
    (h : m.resetQubit name index = .ok after) : m.Keeps after := by
  obtain ⟨bit, -, h⟩ := bind_eq_ok.mp h
  obtain ⟨vector, hv, h⟩ := bind_eq_ok.mp h
  obtain rfl := Except.ok.inj h
  exact keeps_vector (size_of_reset (mapError_eq_ok.mp hv))

theorem keeps_of_resetOperand {v : Operand} (h : m.resetOperand v = .ok after) :
    m.Keeps after := by
  unfold resetOperand at h
  split at h
  · exact keeps_of_resetQuantum h
  · exact keeps_of_resetQubit h
  · exact keeps_of_resetClassical h
  · exact keeps_of_resetClassicalBit h

/-- A measurement changes the vector and takes a draw. -/
theorem of_measureBits_ok {offset width outcome : Nat}
    (h : m.measureBits offset width = .ok (outcome, after)) :
    ∃ vector, vector.size = m.vector.size ∧
      after = { m with vector, drawn := m.drawn + 1 } := by
  obtain ⟨measured, hm, h⟩ := bind_eq_ok.mp h
  obtain ⟨-, rfl⟩ := Prod.mk.inj (Except.ok.inj h)
  obtain ⟨-, -, hm⟩ := bind_eq_ok.mp (mapError_eq_ok.mp hm)
  obtain ⟨outcome, -, hm⟩ := bind_eq_ok.mp hm
  obtain rfl := Except.ok.inj hm
  exact ⟨_, size_collapse .., rfl⟩

omit [Scalar R] in
theorem classicalRegister_eq_ok {name : String} {r : ClassicalRegister} :
    m.classicalRegister name = .ok r ↔ m.classical.find? (·.name == name) = some r := by
  unfold classicalRegister
  cases m.classical.find? (·.name == name) with
  | none => exact ⟨nofun, nofun⟩
  | some s => exact ⟨fun h => congrArg some (Except.ok.inj h), fun h => by cases h; rfl⟩

omit [Scalar R] in
theorem quantumRegister_eq_ok {name : String} {r : QuantumRegister} :
    m.quantumRegister name = .ok r ↔ m.quantum.find? (·.name == name) = some r := by
  unfold quantumRegister
  cases m.quantum.find? (·.name == name) with
  | none => exact ⟨nofun, nofun⟩
  | some s => exact ⟨fun h => congrArg some (Except.ok.inj h), fun h => by cases h; rfl⟩

omit [Scalar R] in
/-- The classical register that is found is the only one of its name. -/
theorem Laid.classical_unique (hm : m.Laid) {name : String} {r s : ClassicalRegister}
    (hr : m.classicalRegister name = .ok r) (hs : s ∈ m.classical) (hname : s.name = name) :
    s = r := by
  have hfound := classicalRegister_eq_ok.mp hr
  have hrname : r.name = name := by simpa using List.find?_some hfound
  have hnodup := (List.nodup_append'.mp hm.distinct).2.1
  exact List.inj_on_of_nodup_map hnodup hs (List.mem_of_find?_eq_some hfound)
    (hname.trans hrname.symm)

theorem keeps_of_measure (hm : m.Laid) {source target : String}
    (h : m.measure source target = .ok after) : m.Keeps after := by
  obtain ⟨q, -, h⟩ := bind_eq_ok.mp h
  obtain ⟨c, hc, h⟩ := bind_eq_ok.mp h
  obtain ⟨hwidth, h⟩ := ite_throw_bind_eq_ok.mp h
  obtain ⟨⟨outcome, next⟩, hbits, h⟩ := bind_eq_ok.mp h
  obtain rfl := Except.ok.inj h
  obtain ⟨vector, hsize, rfl⟩ := of_measureBits_ok hbits
  have hnext : m.Keeps { m with vector, drawn := m.drawn + 1 } := ⟨hsize, rfl, rfl, rfl⟩
  refine hnext.trans (keeps_updateClassical fun r hr hname => ⟨rfl, ?_⟩)
  rw [hm.classical_unique hc hr hname, not_ne_iff.mp hwidth, ClassicalRegister.width,
    BitIndex.bits, List.length_map, List.length_range]

theorem keeps_of_measureBit {source target : String} {sourceIndex targetIndex : Nat}
    (h : m.measureBit source sourceIndex target targetIndex = .ok after) : m.Keeps after := by
  obtain ⟨bit, -, h⟩ := bind_eq_ok.mp h
  obtain ⟨c, -, h⟩ := bind_eq_ok.mp h
  obtain ⟨-, -, h⟩ := bind_eq_ok.mp h
  obtain ⟨⟨outcome, next⟩, hbits, h⟩ := bind_eq_ok.mp h
  obtain rfl := Except.ok.inj h
  obtain ⟨vector, hsize, rfl⟩ := of_measureBits_ok hbits
  have hnext : m.Keeps { m with vector, drawn := m.drawn + 1 } := ⟨hsize, rfl, rfl, rfl⟩
  exact hnext.trans (keeps_updateClassical fun r _ _ => ⟨rfl, width_setBit r _ _⟩)

theorem keeps_of_measureOperand (hm : m.Laid) {source target : Operand}
    (h : m.measureOperand source target = .ok after) : m.Keeps after := by
  unfold measureOperand at h
  split at h
  · exact keeps_of_measure hm h
  · exact keeps_of_measureBit h
  · cases h

theorem keeps_of_applyNamed {table : GateTable} {gate : GateName} {parameters : List R}
    {targets : List Nat} (h : m.applyNamed table gate parameters targets = .ok after) :
    m.Keeps after := by
  obtain ⟨instantiated, -, h⟩ := applyNamed_eq_ok.mp h
  obtain ⟨-, -, operator, -, -, rfl⟩ := apply_eq_ok.mp h
  exact keeps_vector (Kernel.size_applyOnTargets ..)

/-! ## A whole operation, also when it fails -/

omit [Scalar R] in
/-- What all or nothing leaves. -/
theorem keeps_ofExcept {x : Except RunError (Machine R)}
    (h : ∀ {after}, x = .ok after → m.Keeps after) :
    m.Keeps (Outcome.ofExcept m x).state := by
  cases x with
  | error e => exact Keeps.refl m
  | ok after => exact h rfl

omit [Scalar R] in
/-- What a sequence leaves, when each of its steps keeps the registers. -/
theorem keeps_forAll {α : Type} {activity : Machine R → α → Outcome (Machine R)}
    (h : ∀ (m : Machine R) a, m.Keeps (activity m a).state) : ∀ (m : Machine R) (items : List α),
    m.Keeps (Outcome.forAll activity m items).state
  | m, [] => Keeps.refl m
  | m, a :: rest => by
    have hfirst := h m a
    rw [Outcome.forAll]
    split
    · rename_i next hnext
      rw [hnext] at hfirst
      exact hfirst.trans (keeps_forAll h next rest)
    · exact hfirst

/-- A call keeps the registers, however far it gets. -/
theorem keeps_call (table : GateTable) (m : Machine R) (c : GateCall) :
    m.Keeps (m.call table c).state := by
  rw [call_eq]
  split
  · exact Keeps.refl m
  · exact keeps_forAll (fun m a => keeps_ofExcept fun h => keeps_of_applyNamed h) m _

/-- **An operation keeps the registers**, however far it gets. -/
theorem keeps_operate (table : GateTable) (hm : m.Laid) (o : Operation) :
    m.Keeps (m.operate table o).state := by
  cases o with
  | call c => exact keeps_call table m c
  | measure source target =>
    exact keeps_ofExcept fun h => keeps_of_measureOperand hm (mapError_eq_ok.mp h)
  | reset target => exact keeps_ofExcept fun h => keeps_of_resetOperand (mapError_eq_ok.mp h)

/-! ## Declarations -/

theorem laid_initial (maxQubits : Nat) (draws : Nat → R) :
    (initial maxQubits draws).Laid where
  size := rfl
  tiled := trivial
  distinct := List.nodup_nil
  quantum_width _ hr := absurd hr List.not_mem_nil
  classical_width _ hr := absurd hr List.not_mem_nil
  qubits_le := Nat.zero_le _
  limit_le := Nat.min_le_right _ _

omit [Scalar R] in
theorem mem_registerNames {name : String} :
    name ∈ m.registerNames ↔ m.isQuantum name = true ∨ m.isClassical name = true := by
  simp only [registerNames, List.mem_append, List.mem_map, isQuantum, isClassical, List.any_eq_true,
    beq_iff_eq]

omit [Scalar R] in
/-- A declaration is admitted exactly when the register has a bit and its name is new. -/
theorem checkFresh_eq_ok {name : String} {width : Nat} :
    m.checkFresh name width = .ok () ↔ width ≠ 0 ∧ name ∉ m.registerNames := by
  rw [mem_registerNames]
  unfold checkFresh
  by_cases hw : width = 0
  · rw [if_pos hw]
    exact ⟨nofun, fun h => absurd hw h.1⟩
  · rw [if_neg hw]
    split
    · rename_i hn
      exact ⟨nofun, fun h => absurd hn h.2⟩
    · rename_i hn
      exact ⟨fun _ => ⟨hw, hn⟩, fun _ => rfl⟩

omit [Scalar R] in
theorem declareClassical_eq_ok {name : String} {width : Nat} :
    m.declareClassical name width = .ok after ↔
      (m.checkFresh name width = .ok () ∧ width ≤ ClassicalRegister.maxWidth) ∧
        after = { m with classical := m.classical ++ [⟨name, List.replicate width false⟩] } := by
  unfold declareClassical
  rw [seq_eq_ok, ite_throw_bind_eq_ok, and_assoc, Nat.not_lt]
  exact and_congr_right fun _ => and_congr_right fun _ =>
    ⟨fun h => (Except.ok.inj h).symm, fun h => congrArg Except.ok h.symm⟩

omit [Scalar R] in
/-- What a classical declaration adds. -/
theorem registers_of_declareClassical {name : String} {width : Nat}
    (h : m.declareClassical name width = .ok after) :
    after.quantum = m.quantum ∧
      after.classical = m.classical ++ [⟨name, List.replicate width false⟩] := by
  obtain ⟨-, rfl⟩ := declareClassical_eq_ok.mp h
  exact ⟨rfl, rfl⟩

/-- What a quantum declaration adds. -/
theorem registers_of_declareQuantum {name : String} {width : Nat}
    (h : m.declareQuantum name width = .ok after) :
    after.quantum = m.quantum ++ [⟨name, m.qubits, width⟩] ∧ after.classical = m.classical := by
  obtain ⟨-, h⟩ := seq_eq_ok.mp h
  obtain ⟨-, h⟩ := ite_throw_bind_eq_ok.mp h
  obtain ⟨fresh, -, h⟩ := bind_eq_ok.mp h
  obtain rfl := Except.ok.inj h
  exact ⟨rfl, rfl⟩

omit [Scalar R] in
theorem laid_of_declareClassical (hm : m.Laid) {name : String} {width : Nat}
    (h : m.declareClassical name width = .ok after) : after.Laid := by
  obtain ⟨⟨hfresh, -⟩, rfl⟩ := declareClassical_eq_ok.mp h
  obtain ⟨hwidth, hname⟩ := checkFresh_eq_ok.mp hfresh
  refine ⟨hm.size, hm.tiled, ?_, hm.quantum_width, ?_, hm.qubits_le, hm.limit_le⟩
  · rw [registerNames, List.map_append, ← List.append_assoc]
    refine List.nodup_append'.mpr ⟨hm.distinct, List.nodup_singleton _, ?_⟩
    intro other hother hsingle
    rw [show other = name from List.mem_singleton.mp hsingle] at hother
    exact hname hother
  · intro r hr
    rcases List.mem_append.mp hr with hr | hr
    · exact hm.classical_width r hr
    · obtain rfl := List.mem_singleton.mp hr
      rwa [ClassicalRegister.width, List.length_replicate]

theorem laid_of_declareQuantum (hm : m.Laid) {name : String} {width : Nat}
    (h : m.declareQuantum name width = .ok after) : after.Laid := by
  obtain ⟨hfresh, h⟩ := seq_eq_ok.mp h
  obtain ⟨hwidth, hname⟩ := checkFresh_eq_ok.mp hfresh
  obtain ⟨hlimit, h⟩ := ite_throw_bind_eq_ok.mp h
  obtain ⟨fresh, hzero, h⟩ := bind_eq_ok.mp h
  obtain rfl := Except.ok.inj h
  have hfreshSize := StateVector.size_of_zeroState (mapError_eq_ok.mp hzero)
  -- the new register stands above: its bits are the high ones of the tensor product
  have hsize : (fresh.tensor m.vector).size = 2 ^ (m.qubits + width) := by
    rw [Nat.add_comm, Nat.pow_add, ← hm.size, ← hfreshSize]
    exact Kernel.size_tabulate _ _
  have hqubits : QuantumRegister.totalWidth (m.quantum ++ [⟨name, m.qubits, width⟩]) =
      m.qubits + width := QuantumRegister.totalWidth_append ..
  have hcount : StateVector.maxQubits < countLimit := by decide
  have hlimit_le := hm.limit_le
  refine ⟨?_, hm.tiled.append (Nat.zero_add _).symm, ?_, ?_, hm.classical_width, ?_, hlimit_le⟩
  · exact hsize.trans (congrArg (2 ^ ·) hqubits.symm)
  · rw [registerNames, List.map_append, List.append_assoc]
    exact List.perm_middle.nodup_iff.mpr (List.nodup_cons.mpr ⟨hname, hm.distinct⟩)
  · intro r hr
    rcases List.mem_append.mp hr with hr | hr
    · exact hm.quantum_width r hr
    · obtain rfl := List.mem_singleton.mp hr
      exact hwidth
  · have hwithin : m.qubits + width ≤ m.limit := by omega
    exact hqubits.trans_le hwithin

omit [Scalar R] in
theorem limit_of_declareClassical {name : String} {width : Nat}
    (h : m.declareClassical name width = .ok after) : after.limit = m.limit := by
  obtain ⟨-, rfl⟩ := declareClassical_eq_ok.mp h
  rfl

theorem limit_of_declareQuantum {name : String} {width : Nat}
    (h : m.declareQuantum name width = .ok after) : after.limit = m.limit := by
  obtain ⟨-, h⟩ := seq_eq_ok.mp h
  obtain ⟨-, h⟩ := ite_throw_bind_eq_ok.mp h
  obtain ⟨fresh, -, h⟩ := bind_eq_ok.mp h
  obtain rfl := Except.ok.inj h
  rfl

/-- What a statement does to the registers of a machine: it keeps them, or declares one more. -/
inductive Extends (m : Machine R) : Machine R → Prop
  | keep {after : Machine R} : m.Keeps after → Extends m after
  | quantum {name : String} {width : Nat} {after : Machine R} :
    m.declareQuantum name width = .ok after → Extends m after
  | classical {name : String} {width : Nat} {after : Machine R} :
    m.declareClassical name width = .ok after → Extends m after

end Machine

/-! ## Executors -/

namespace Executor

variable [Scalar R] {x : Executor R} {maxQubits : Nat} {draws : Nat → R}

/-- The executors that statements lead to from the initial one, whether they succeed or fail. -/
inductive Reached (maxQubits : Nat) (draws : Nat → R) : Executor R → Prop
  | initial : Reached maxQubits draws (.initial maxQubits draws)
  | execute {x : Executor R} (s : Statement) :
      Reached maxQubits draws x → Reached maxQubits draws (x.execute s).state

/-- **What a statement does to the registers**, also when it fails. -/
theorem extends_execute (h : x.machine.Laid) (s : Statement) :
    x.machine.Extends (x.execute s).state.machine := by
  show x.machine.Extends (x.perform s.action).state.machine
  have hkeeps : x.machine.Extends x.machine := .keep (Machine.Keeps.refl _)
  cases s.action with
  | register kind name width =>
    cases kind with
    | quantum =>
      show x.machine.Extends (Outcome.ofExcept x.machine
        ((x.machine.declareQuantum name width).mapError RunError.bare)).state
      cases hd : x.machine.declareQuantum name width with
      | error e => exact hkeeps
      | ok after => exact .quantum hd
    | classical =>
      show x.machine.Extends (Outcome.ofExcept x.machine
        ((x.machine.declareClassical name width).mapError RunError.bare)).state
      cases hd : x.machine.declareClassical name width with
      | error e => exact hkeeps
      | ok after => exact .classical hd
  | gate signature body => exact hkeeps
  | opaqueGate signature => exact hkeeps
  | operation o => exact .keep (Machine.keeps_operate x.gates h o)
  | barrier operands =>
    rw [perform]
    cases x.machine.checkBarrier operands with
    | error e => exact hkeeps
    | ok u => exact hkeeps
  | conditional register value o pos =>
    rw [perform]
    split
    · exact hkeeps
    · exact hkeeps
    · exact .keep (Machine.keeps_operate x.gates h o)

/-- **A statement keeps the machine laid out**, also when it fails. -/
theorem laid_execute (h : x.machine.Laid) (s : Statement) : (x.execute s).state.machine.Laid := by
  cases extends_execute h s with
  | keep hk => exact hk.laid h
  | quantum hd => exact Machine.laid_of_declareQuantum h hd
  | classical hd => exact Machine.laid_of_declareClassical h hd

/-- A statement does not change the limit. -/
theorem limit_execute (h : x.machine.Laid) (s : Statement) :
    (x.execute s).state.machine.limit = x.machine.limit := by
  cases extends_execute h s with
  | keep hk => exact hk.limit
  | quantum hd => exact Machine.limit_of_declareQuantum hd
  | classical hd => exact Machine.limit_of_declareClassical hd

/-- **Every machine that statements lead to is laid out.** -/
theorem Reached.laid (h : Reached maxQubits draws x) : x.machine.Laid := by
  induction h with
  | initial => exact Machine.laid_initial maxQubits draws
  | execute s _ ih => exact laid_execute ih s

theorem Reached.limit (h : Reached maxQubits draws x) :
    x.machine.limit = min maxQubits StateVector.maxQubits := by
  induction h with
  | initial => rfl
  | execute s hx ih => exact (limit_execute hx.laid s).trans ih

/-- A run leads to such an executor, also when a statement stops it. -/
theorem Reached.run (h : Reached maxQubits draws x) (statements : List Statement) :
    Reached maxQubits draws (x.run statements).state :=
  Outcome.invariant_forAll (P := Reached maxQubits draws) (fun _ s hx => hx.execute s) statements h

end Executor

end OpenQasm
