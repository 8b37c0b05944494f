import OpenQasm.Proofs.Layout
import OpenQasm.Proofs.Legal
import OpenQasm.Proofs.Spread

/-!
# What can still go wrong on a machine

The faults of machine operations whose operands are legal. `RunFault.Remains` lists them: no fault
about a declaration, an index or the size of a gate is among them. A name can be missing unless
`named` holds, a proposition that stands for whatever makes every name known. What has no place in
an address space is a register that is declared or a circuit inside a gate that is applied;
`beyond` stands for what is known of it.

The link between the two is `Machine.Agrees`: the registers of the machine are what the environment
says of their names. Each lemma `ends_…` is about one operation, and says what it answers and
which faults it has.
-/

namespace OpenQasm

/-- The faults that remain when operands are legal. Those of a missing name do unless `named`, those
of what has no place in an address space if `beyond`. -/
def RunFault.Remains (named : Prop) (beyond : RunFault → Prop) : RunFault → Prop
  | .algebra e => e = .zeroProbability ∨ e.IsPermutation ∨ beyond (.algebra e)
  | .unaddressable name width => beyond (.unaddressable name width)
  | .undefinedRegister _ | .undefinedGate _ | .unboundParameter _ => ¬named
  | .sizeMismatch (.measureWidths ..) | .sizeMismatch (.measureMixed ..)
  | .sizeMismatch (.broadcast _) => True
  | .opaqueGate _ | .recursiveGate _ | .duplicateQubit _ | .tooManyQubits ..
  | .notANumber _ => True
  | .sizeMismatch (.rotationParameters _) | .sizeMismatch (.gateParameters ..)
  | .sizeMismatch (.qubitOutside ..) | .sizeMismatch (.operatorWidth ..) => False
  | .duplicateRegister _ | .emptyRegister _ | .indexOutOfRange .. => False

/-- Blaming a position does not change a fault. -/
theorem Ends.located {α : Type} {named : Prop} {beyond : RunFault → Prop} {post : α → Prop}
    {x : Except RunError α} (h : Ends x post (·.fault.Remains named beyond)) (pos : SourcePos) :
    Ends (x.mapError (RunError.located pos)) post (·.fault.Remains named beyond) :=
  h.mapError fun _ he => he

theorem Ends.bare {α : Type} {named : Prop} {beyond : RunFault → Prop} {post : α → Prop}
    {x : Except RunFault α} (h : Ends x post (RunFault.Remains named beyond)) :
    Ends (x.mapError RunError.bare) post (·.fault.Remains named beyond) := h.mapError fun _ he => he

/-- An operand names a register of this kind and width, with its index inside. -/
def Env.Register (env : Env) (v : Operand) (kind : RegisterKind) (width : Nat) : Prop :=
  env v.name = some (.register kind width) ∧ ∀ i, v.index = some i → i < width

namespace Env

variable {env : Env} {v : Operand}

/-- An environment without formals. -/
def Global (env : Env) : Prop :=
  ∀ name kind, env name = some kind → ∀ position, kind ≠ .parameter position ∧
    kind ≠ .argument position

theorem Names.register {kind : RegisterKind} {width : Nat}
    (h : env.Names v (.register kind width)) :
    env.Register v kind width := ⟨h.1, h.2⟩

/-- Without formals, the variables are the registers and their elements. -/
theorem Names.kind_eq (hglobal : env.Global) {kind : SymbolKind} (h : env.Names v kind) :
    ∃ register width, kind = .register register width := by
  have hformal := hglobal v.name kind h.1
  cases kind with
  | register register width => exact ⟨register, width, rfl⟩
  | gate parameters arguments => exact h.2.elim
  | parameter position => exact absurd rfl (hformal position).1
  | argument position => exact absurd rfl (hformal position).2

/-- Without formals, the qubits are the quantum registers and their elements. -/
theorem Qubit.register (hglobal : env.Global) (h : env.Qubit v) :
    ∃ width, env.Register v .quantum width := by
  obtain ⟨kind, hnames, hqubit⟩ := h
  obtain ⟨register, width, rfl⟩ := hnames.kind_eq hglobal
  cases register with
  | quantum => exact ⟨width, hnames.register⟩
  | classical => cases hqubit

/-- Without formals, what is no qubit is a classical register or one of its bits. -/
theorem Classical.register (hglobal : env.Global) (h : env.Classical v) :
    ∃ width, env.Register v .classical width := by
  obtain ⟨kind, hnames, hqubit⟩ := h
  obtain ⟨register, width, rfl⟩ := hnames.kind_eq hglobal
  cases register with
  | quantum => cases hqubit
  | classical => exact ⟨width, hnames.register⟩

end Env

namespace Machine

variable {R : Type} {m : Machine R} {env : Env} {named : Prop} {beyond : RunFault → Prop}

/-- The registers of a machine are what an environment says of their names. -/
structure Agrees (m : Machine R) (env : Env) : Prop where
  quantum : ∀ r ∈ m.quantum, env r.name = some (.register .quantum r.width)
  classical : ∀ r ∈ m.classical, env r.name = some (.register .classical r.width)

/-! ## Registers and indices -/

theorem ends_quantumRegister {name : String} (hnamed : named → m.isQuantum name = true) :
    Ends (m.quantumRegister name) (fun r => r ∈ m.quantum ∧ r.name = name)
      (RunFault.Remains named beyond) := by
  unfold quantumRegister
  cases hf : m.quantum.find? (·.name == name) with
  | some r => exact ⟨List.mem_of_find?_eq_some hf, by simpa using List.find?_some hf⟩
  | none =>
    intro h
    obtain ⟨r, hr, hname⟩ := List.any_eq_true.mp (hnamed h)
    exact List.find?_eq_none.mp hf r hr hname

theorem ends_classicalRegister {name : String} (hnamed : named → m.isClassical name = true) :
    Ends (m.classicalRegister name) (fun r => r ∈ m.classical ∧ r.name = name)
      (RunFault.Remains named beyond) := by
  unfold classicalRegister
  cases hf : m.classical.find? (·.name == name) with
  | some r => exact ⟨List.mem_of_find?_eq_some hf, by simpa using List.find?_some hf⟩
  | none =>
    intro h
    obtain ⟨r, hr, hname⟩ := List.any_eq_true.mp (hnamed h)
    exact List.find?_eq_none.mp hf r hr hname

theorem ends_checkIndex {name : String} {index width : Nat} (h : index < width) :
    Ends (checkIndex name index width) (fun _ => True) (RunFault.Remains named beyond) := by
  unfold checkIndex
  rw [if_neg (Nat.not_le.mpr h)]
  trivial

/-- The width of a register that is found, and that its operand is legal for. -/
theorem Agrees.quantum_width (ha : m.Agrees env) {v : Operand} {width : Nat}
    (hv : env.Register v .quantum width) {r : QuantumRegister} (hr : r ∈ m.quantum)
    (hname : r.name = v.name) : r.width = width := by
  have := ha.quantum r hr
  rw [hname, hv.1] at this
  cases this
  rfl

theorem Agrees.classical_width (ha : m.Agrees env) {v : Operand} {width : Nat}
    (hv : env.Register v .classical width) {r : ClassicalRegister} (hr : r ∈ m.classical)
    (hname : r.name = v.name) : r.width = width := by
  have := ha.classical r hr
  rw [hname, hv.1] at this
  exact (SymbolKind.register.inj (Option.some.inj this)).2.symm

/-- An element of a quantum register is a qubit of the machine. -/
theorem ends_qubit (hm : m.Laid) (ha : m.Agrees env) {v : Operand} {width i : Nat}
    (hv : env.Register v .quantum width) (hi : v.index = some i)
    (hnamed : named → m.isQuantum v.name = true) :
    Ends (m.qubit v.name i) (· < m.qubits) (RunFault.Remains named beyond) := by
  unfold qubit
  refine (ends_quantumRegister hnamed).bind fun r _ ⟨hr, hname⟩ => ?_
  have hlt : i < r.width := by
    rw [ha.quantum_width hv hr hname]
    exact hv.2 i hi
  refine (ends_checkIndex hlt).bind fun _ _ _ => ?_
  have := hm.tiled.within hr
  have hq : r.offset + i < QuantumRegister.totalWidth m.quantum := by omega
  exact hq

/-- The bits that an operand names: qubits of the machine, and one of them for an element. -/
theorem ends_operandBits (hm : m.Laid) (ha : m.Agrees env) {v : Operand} {width : Nat}
    (hv : env.Register v .quantum width) (hnamed : named → m.isQuantum v.name = true) :
    Ends (m.operandBits v)
      (fun bits => (∀ b ∈ bits, b < m.qubits) ∧ (v.isIndexed = true → bits.length = 1))
      (RunFault.Remains named beyond) := by
  unfold operandBits
  cases hi : v.index with
  | some i =>
    refine (ends_qubit hm ha hv hi hnamed).bind fun bit _ hbit => ?_
    exact ⟨fun b hb => by rwa [List.mem_singleton.mp hb], fun _ => rfl⟩
  | none =>
    refine (ends_quantumRegister hnamed).bind fun r _ ⟨hr, _⟩ => ?_
    refine ⟨fun b hb => ?_, fun h => ?_⟩
    · obtain ⟨k, hk, rfl⟩ := List.mem_map.mp hb
      have hk := List.mem_range.mp hk
      have := hm.tiled.within hr
      have hq : r.offset + k < QuantumRegister.totalWidth m.quantum := by omega
      exact hq
    · rw [Operand.isIndexed, hi] at h
      cases h

/-! ## Measurements and resets -/

theorem ends_checkRange (hm : m.Laid) {offset width : Nat} (h : offset + width ≤ m.qubits) :
    Ends (m.vector.checkRange offset width) (fun _ => True) (· = .zeroProbability) := by
  unfold StateVector.checkRange
  rw [hm.vector_qubits, if_neg (Nat.not_lt.mpr h)]
  trivial

theorem remains_zeroProbability {e : AlgebraError} (h : e = .zeroProbability) :
    (RunFault.algebra e).Remains named beyond := Or.inl h

theorem Agrees.register_of_names (ha : m.Agrees env) {v : Operand} {kind : SymbolKind}
    (hv : env.Names v kind) {r : QuantumRegister} (hr : r ∈ m.quantum) (hname : r.name = v.name) :
    env.Register v .quantum r.width := by
  have hkind := ha.quantum r hr
  rw [hname, hv.1] at hkind
  obtain rfl := Option.some.inj hkind
  exact hv.register

theorem Agrees.classical_of_names (ha : m.Agrees env) {v : Operand} {kind : SymbolKind}
    (hv : env.Names v kind) {r : ClassicalRegister} (hr : r ∈ m.classical)
    (hname : r.name = v.name) : env.Register v .classical r.width := by
  have hkind := ha.classical r hr
  rw [hname, hv.1] at hkind
  obtain rfl := Option.some.inj hkind
  exact hv.register

theorem ends_resetClassical {name : String} (hnamed : named → m.isClassical name = true) :
    Ends (m.resetClassical name) (fun _ => True) (RunFault.Remains named beyond) := by
  unfold resetClassical
  have hdiscard : Ends (discard (m.classicalRegister name)) (fun _ => True)
      (RunFault.Remains named beyond) := (ends_classicalRegister hnamed).bind fun _ _ _ => trivial
  exact hdiscard.bind fun _ _ _ => trivial

theorem ends_resetClassicalBit (ha : m.Agrees env) {v : Operand} {kind : SymbolKind} {i : Nat}
    (hv : env.Names v kind) (hi : v.index = some i) (hnamed : named → m.isClassical v.name = true) :
    Ends (m.resetClassicalBit v.name i) (fun _ => True) (RunFault.Remains named beyond) := by
  unfold resetClassicalBit
  refine (ends_classicalRegister hnamed).bind fun r _ ⟨hr, hname⟩ => ?_
  have hregister := ha.classical_of_names hv hr hname
  exact (ends_checkIndex (hregister.2 i hi)).bind fun _ _ _ => trivial

variable [Scalar R]

theorem ends_selectOutcome (masses : List R) (u : R) :
    Ends (StateVector.selectOutcome masses u) (fun _ => True) (· = .zeroProbability) := by
  unfold StateVector.selectOutcome
  dsimp only
  split
  · rfl
  · split
    · rfl
    · trivial

theorem ends_measureBits (hm : m.Laid) {offset width : Nat} (h : offset + width ≤ m.qubits) :
    Ends (m.measureBits offset width) (fun _ => True) (RunFault.Remains named beyond) := by
  unfold measureBits
  have hmeasure : Ends (m.vector.measure offset width (m.draws m.drawn)) (fun _ => True)
      (· = .zeroProbability) := by
    unfold StateVector.measure
    refine (ends_checkRange hm h).bind fun _ _ _ => ?_
    exact (ends_selectOutcome _ _).bind fun _ _ _ => trivial
  exact (hmeasure.mapError fun _ he => remains_zeroProbability he).bind fun _ _ _ => trivial

/-- The projection of bits that exist. -/
theorem ends_reset (hm : m.Laid) {offset width : Nat} (h : offset + width ≤ m.qubits) :
    Ends ((m.vector.reset offset width).mapError RunFault.algebra) (fun _ => True)
      (RunFault.Remains named beyond) := by
  unfold StateVector.reset
  refine Ends.mapError ?_ fun _ he => remains_zeroProbability he
  refine (ends_checkRange hm h).bind fun _ _ _ => ?_
  dsimp only
  split
  · rfl
  · trivial

theorem ends_measureOperand (hm : m.Laid) (ha : m.Agrees env) {source target : Operand}
    {sourceWidth targetWidth : Nat} (hs : env.Register source .quantum sourceWidth)
    (ht : env.Register target .classical targetWidth)
    (hsnamed : named → m.isQuantum source.name = true)
    (htnamed : named → m.isClassical target.name = true) :
    Ends (m.measureOperand source target) (fun _ => True) (RunFault.Remains named beyond) := by
  unfold measureOperand
  split
  · unfold measure
    refine (ends_quantumRegister hsnamed).bind fun q _ ⟨hq, _⟩ => ?_
    refine (ends_classicalRegister htnamed).bind fun c _ _ => ?_
    have hwithin := (hm.tiled.within hq).2
    rw [Nat.zero_add] at hwithin
    refine Ends.ite_throw (fun _ => trivial) fun _ => ?_
    exact (ends_measureBits hm hwithin).bind fun _ _ _ => trivial
  · rename_i i j hi hj
    unfold measureBit
    refine (ends_qubit hm ha hs hi hsnamed).bind fun bit _ hbit => ?_
    refine (ends_classicalRegister htnamed).bind fun c _ ⟨hc, hname⟩ => ?_
    have hlt : j < c.width := by
      rw [ha.classical_width ht hc hname]
      exact ht.2 j hj
    refine (ends_checkIndex hlt).bind fun _ _ _ => ?_
    exact (ends_measureBits hm hbit).bind fun _ _ _ => trivial
  · trivial

theorem ends_resetOperand (hm : m.Laid) (ha : m.Agrees env) {v : Operand} {kind : SymbolKind}
    (hv : env.Names v kind)
    (hnamed : named → m.isQuantum v.name = true ∨ m.isClassical v.name = true) :
    Ends (m.resetOperand v) (fun _ => True) (RunFault.Remains named beyond) := by
  have hclassical : m.isQuantum v.name = false → named → m.isClassical v.name = true := by
    intro hquantum h
    rcases hnamed h with hq | hc
    · rw [hquantum] at hq
      cases hq
    · exact hc
  unfold resetOperand
  split
  · rename_i hquantum _
    unfold resetQuantum
    refine (ends_quantumRegister fun _ => hquantum).bind fun r _ ⟨hr, _⟩ => ?_
    have hwithin := (hm.tiled.within hr).2
    rw [Nat.zero_add] at hwithin
    exact (ends_reset hm hwithin).bind fun _ _ _ => trivial
  · rename_i i hquantum hi
    unfold resetQubit
    obtain ⟨r, hr, hname⟩ := List.any_eq_true.mp hquantum
    have hregister := ha.register_of_names hv hr (by simpa using hname)
    refine (ends_qubit hm ha hregister hi fun _ => hquantum).bind fun bit _ hbit => ?_
    exact (ends_reset hm hbit).bind fun _ _ _ => trivial
  · rename_i hquantum _
    exact ends_resetClassical (hclassical hquantum)
  · rename_i i hquantum hi
    exact ends_resetClassicalBit ha hv hi (hclassical hquantum)

/-! ## Applying a gate -/

omit [Scalar R] in
theorem ends_checkTargets {total : Nat} : ∀ {seen targets : List Nat},
    (∀ q ∈ targets, q < total) →
    Ends (checkTargets total seen targets) (fun _ => True) (RunFault.Remains named beyond)
  | _, [], _ => trivial
  | seen, q :: rest, h => by
    obtain ⟨hq, hrest⟩ := List.forall_mem_cons.mp h
    unfold checkTargets
    rw [if_neg (Nat.not_le.mpr hq)]
    split
    · trivial
    · exact ends_checkTargets hrest

/-- A gate whose sizes fit, on qubits that exist. It is resolved when its targets are known to
differ, and so to be no more than the qubits. -/
theorem ends_apply {gate : Gate (Amplitude R)} {targets : List Nat}
    (hfits : gate.Fits targets.length) (hlt : ∀ q ∈ targets, q < m.qubits)
    (hbeyond : targets.length ≤ m.qubits → ∀ e : AlgebraError, e.Exceeds gate.widths →
      beyond (.algebra e)) :
    Ends (m.apply gate targets) (fun _ => True) (RunFault.Remains named beyond) := by
  unfold apply
  refine (ends_checkTargets hlt).bind fun _ htargets _ => ?_
  have hcount : targets.length ≤ m.qubits :=
    length_le_of_nodup (checkTargets_eq_ok.mp htargets).2 hlt
  have hresolve : Ends (gate.resolve.mapError RunFault.algebra) (·.dim = 2 ^ targets.length)
      (RunFault.Remains named beyond) :=
    (Gate.ends_resolve gate hfits).mapError fun e he => Or.inr (he.imp_right (hbeyond hcount e))
  refine hresolve.bind fun operator _ hdim => ?_
  exact Ends.ite_throw (fun hne => absurd hdim hne) fun _ => trivial

end Machine

end OpenQasm
