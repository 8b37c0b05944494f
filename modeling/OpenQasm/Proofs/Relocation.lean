import OpenQasm.Proofs.Calling
import OpenQasm.Proofs.Embedding
import OpenQasm.Proofs.History
import OpenQasm.Proofs.Measuring

/-!
# Machines with another layout

A machine `m'` has the registers of `m`, and perhaps more, at other offsets. The state of `m` is
embedded in that of `m'`, register by register (`Relocated`). Every operation that succeeds on `m`
succeeds on `m'` with the same draw and writes the same bits, and leaves machines that are
relocated again.

* `relocation`: where the bits of some registers stand in another layout.
* `Relocated.applyNamed`, `Relocated.call`, `Relocated.measureOperand`, `Relocated.resetOperand`,
  `Relocated.declareClassical`: one lemma for each operation.
* `Relocated.declareQuantum`: a declaration of `m` whose register `m'` has already.
-/

namespace OpenQasm

open BitIndex StateVector

namespace QuantumRegister

/-! ## Layouts -/

/-- Where the register of a name starts. -/
def offsetIn (registers : List QuantumRegister) (name : String) : Nat :=
  ((registers.find? (·.name == name)).map (·.offset)).getD 0

/-- The bits of some registers, in their order, where the registers `moved` have them. -/
def relocation (moved registers : List QuantumRegister) : List Nat :=
  registers.flatMap fun r => block (offsetIn moved r.name) r.width

variable {moved registers : List QuantumRegister}

theorem relocation_cons (r : QuantumRegister) (rest : List QuantumRegister) :
    relocation moved (r :: rest) =
      block (offsetIn moved r.name) r.width ++ relocation moved rest := List.flatMap_cons

theorem length_relocation : (relocation moved registers).length = totalWidth registers := by
  induction registers with
  | nil => rfl
  | cons r rest ih =>
    rw [relocation_cons, List.length_append, length_block, ih, totalWidth]

theorem mem_relocation {p : Nat} : p ∈ relocation moved registers ↔
    ∃ r ∈ registers, offsetIn moved r.name ≤ p ∧ p < offsetIn moved r.name + r.width := by
  simp only [relocation, List.mem_flatMap, mem_block]

/-- The bits of a register stand where the registers before it end. -/
theorem Tiled.getElem?_relocation {r : QuantumRegister} {j : Nat} (hj : j < r.width) :
    ∀ {registers : List QuantumRegister} {offset : Nat}, Tiled offset registers → r ∈ registers →
      (relocation moved registers)[r.offset - offset + j]? = some (offsetIn moved r.name + j)
  | [], _, _, hr => absurd hr List.not_mem_nil
  | s :: rest, offset, h, hr => by
    rw [relocation_cons]
    by_cases hrs : r = s
    · subst hrs
      have hfirst : r.offset - offset + j = j := by
        have := h.1
        omega
      rw [hfirst, List.getElem?_append_left (by rwa [length_block])]
      exact getElem?_block.mpr ⟨hj, rfl⟩
    · have hrest := (List.mem_cons.mp hr).resolve_left hrs
      have hbelow := (h.2.within hrest).1
      have hskip : r.offset - offset + j = s.width + (r.offset - (offset + s.width) + j) := by
        omega
      rw [hskip, List.getElem?_append_right (by rw [length_block]; omega), length_block,
        Nat.add_sub_cancel_left]
      exact h.2.getElem?_relocation hj hrest

/-- A register stands at consecutive bits in both layouts. -/
theorem Tiled.located (h : Tiled 0 registers) {r : QuantumRegister} (hr : r ∈ registers) :
    Located (relocation moved registers) r.offset r.width (offsetIn moved r.name) where
  within := by
    rw [length_relocation, ← Nat.zero_add (totalWidth registers)]
    exact (h.within hr).2
  locate_eq := by
    refine List.ext_getElem? fun j => ?_
    rw [getElem?_locate, block, block, List.getElem?_map, List.getElem?_map]
    by_cases hj : j < r.width
    · have hfound : (relocation moved registers)[r.offset - 0 + j]? =
          some (offsetIn moved r.name + j) := h.getElem?_relocation hj hr
      rw [Nat.sub_zero] at hfound
      rw [List.getElem?_range hj, Option.map_some, Option.map_some, Option.map_some,
        List.getD_eq_getElem?_getD, hfound, Option.getD_some]
    · rw [List.getElem?_eq_none (by simpa using hj)]
      rfl

end QuantumRegister

namespace Machine

open QuantumRegister

variable {R : Type}

/-! ## Machines -/

section Relocated

variable [Scalar R]

/-- The registers of `m` stand at other offsets in `m'`, among others whose qubits are all `0`. -/
structure Relocated (m m' : Machine R) : Prop where
  laid : m.Laid
  laid' : m'.Laid
  registers : ∀ r ∈ m.quantum, ∃ s, m'.quantumRegister r.name = .ok s ∧ s.width = r.width
  classical : m'.classical = m.classical
  draws : m'.draws = m.draws
  drawn : m'.drawn = m.drawn
  embeds : Embeds (relocation m'.quantum m.quantum) m'.qubits m.vector m'.vector

variable {m m' after after' : Machine R}

/-- Machines that keep their registers, and change the rest in the same way. -/
theorem Relocated.of_keeps (h : Relocated m m') (hk : m.Keeps after) (hk' : m'.Keeps after')
    (hclassical : after'.classical = after.classical) (hdraws : after'.draws = after.draws)
    (hdrawn : after'.drawn = after.drawn)
    (hembeds : Embeds (relocation m'.quantum m.quantum) m'.qubits after.vector after'.vector) :
    Relocated after after' where
  laid := hk.laid h.laid
  laid' := hk'.laid h.laid'
  registers := by
    unfold quantumRegister
    rw [hk.quantum, hk'.quantum]
    exact h.registers
  classical := hclassical
  draws := hdraws
  drawn := hdrawn
  embeds := by rwa [qubits, hk.quantum, hk'.quantum]

/-! ### Looking up -/

omit [Scalar R] in
theorem offsetIn_of_quantumRegister {name : String} {s : QuantumRegister}
    (hs : m.quantumRegister name = .ok s) : offsetIn m.quantum name = s.offset := by
  rw [offsetIn, quantumRegister_eq_ok.mp hs, Option.map_some, Option.getD_some]

/-- A register that is found in one machine is found in the other one. -/
theorem Relocated.quantumRegister (h : Relocated m m') {name : String} {r : QuantumRegister}
    (hr : m.quantumRegister name = .ok r) :
    ∃ s, m'.quantumRegister name = .ok s ∧ s.width = r.width ∧
      Located (relocation m'.quantum m.quantum) r.offset r.width s.offset := by
  obtain ⟨hmem, rfl⟩ := mem_of_quantumRegister hr
  obtain ⟨s, hs, hwidth⟩ := h.registers r hmem
  refine ⟨s, hs, hwidth, ?_⟩
  rw [← offsetIn_of_quantumRegister hs]
  exact h.laid.tiled.located hmem

theorem Relocated.qubit (h : Relocated m m') {name : String} {index bit : Nat}
    (hbit : m.qubit name index = .ok bit) :
    ∃ bit', m'.qubit name index = .ok bit' ∧
      Located (relocation m'.quantum m.quantum) bit 1 bit' := by
  obtain ⟨r, hr, hindex, rfl⟩ := qubit_eq_ok.mp hbit
  obtain ⟨s, hs, hwidth, hlocated⟩ := h.quantumRegister hr
  exact ⟨_, qubit_eq_ok.mpr ⟨s, hs, hwidth ▸ hindex, rfl⟩, hlocated.bit hindex⟩

theorem Relocated.classicalRegister (h : Relocated m m') (name : String) :
    m'.classicalRegister name = m.classicalRegister name := by
  rw [Machine.classicalRegister, Machine.classicalRegister, h.classical]

theorem Relocated.operandBits (h : Relocated m m') {v : Operand} {bits : List Nat}
    (hv : m.operandBits v = .ok bits) :
    m'.operandBits v = .ok (locate (relocation m'.quantum m.quantum) bits) := by
  unfold Machine.operandBits at hv ⊢
  cases hi : v.index with
  | some i =>
    rw [hi] at hv
    obtain ⟨bit, hbit, hv⟩ := bind_eq_ok.mp hv
    obtain rfl := Except.ok.inj hv
    obtain ⟨bit', hbit', hlocated⟩ := h.qubit hbit
    exact bind_eq_ok.mpr ⟨bit', hbit', congrArg Except.ok hlocated.locate_eq.symm⟩
  | none =>
    rw [hi] at hv
    obtain ⟨r, hr, hv⟩ := bind_eq_ok.mp hv
    obtain rfl := Except.ok.inj hv
    obtain ⟨s, hs, hwidth, hlocated⟩ := h.quantumRegister hr
    refine bind_eq_ok.mpr ⟨s, hs, congrArg Except.ok ?_⟩
    show block s.offset s.width = _
    rw [hwidth]
    exact hlocated.locate_eq.symm

theorem Relocated.isQuantum (h : Relocated m m') {name : String} (hname : m.isQuantum name = true) :
    m'.isQuantum name = true := by
  obtain ⟨r, hr, hrname⟩ := List.any_eq_true.mp hname
  obtain ⟨s, hs, -⟩ := h.registers r hr
  obtain ⟨hmem, hsname⟩ := mem_of_quantumRegister hs
  exact List.any_eq_true.mpr ⟨s, hmem, by rwa [hsname]⟩

end Relocated

section Operations

variable [RealScalar R] {m m' after : Machine R}

/-! ### Gates -/

/-- **One application**, at located bits. -/
theorem Relocated.applyNamed (h : Relocated m m') {table : GateTable} {gate : GateName}
    {parameters : List R} {targets : List Nat}
    (ha : m.applyNamed table gate parameters targets = .ok after) :
    ∃ after', m'.applyNamed table gate parameters
        (locate (relocation m'.quantum m.quantum) targets) = .ok after' ∧
      Relocated after after' ∧ after.quantum = m.quantum ∧ after'.quantum = m'.quantum := by
  obtain ⟨instantiated, hinstantiate, happly⟩ := applyNamed_eq_ok.mp ha
  obtain ⟨hlt, hdistinct, operator, hresolve, hdim, rfl⟩ := apply_eq_ok.mp happly
  have hwithin : ∀ t ∈ targets, t < (relocation m'.quantum m.quantum).length := by
    rw [length_relocation]
    exact hlt
  have hlt' : ∀ q ∈ locate (relocation m'.quantum m.quantum) targets, q < m'.qubits :=
    fun q hq => h.embeds.lt q (locate_mem hwithin hq)
  have hdistinct' := locate_nodup h.embeds.nodup hdistinct hwithin
  have hok := apply_eq_ok.mpr ⟨hlt', hdistinct', operator, hresolve,
    hdim.trans (by rw [length_locate]), rfl⟩
  refine ⟨_, applyNamed_eq_ok.mpr ⟨instantiated, hinstantiate, hok⟩, ?_, rfl, rfl⟩
  exact h.of_keeps (keeps_of_apply happly) (keeps_of_apply hok) h.classical h.draws h.drawn
    (h.embeds.applyOnTargets hwithin operator.entries)

/-- An application with its bits located. -/
def relocateApplied (positions : List Nat) (a : Applied R) : Applied R :=
  { a with bits := locate positions a.bits }

/-- Applications in a row. -/
theorem Relocated.applyEach {table : GateTable} {positions : List Nat}
    {calls : List (Applied R)} (h : Relocated m m')
    (hpositions : relocation m'.quantum m.quantum = positions)
    (hm : m.applyEach table calls = .ok after) :
    ∃ after', m'.applyEach table (calls.map (relocateApplied positions)) = .ok after' ∧
      Relocated after after' ∧ after.quantum = m.quantum ∧ after'.quantum = m'.quantum := by
  induction calls generalizing m m' with
  | nil =>
    obtain rfl := Except.ok.inj hm
    exact ⟨m', rfl, h, rfl, rfl⟩
  | cons a rest ih =>
    rw [applyEach_cons] at hm
    obtain ⟨next, hnext, hrest⟩ := bind_eq_ok.mp hm
    obtain ⟨next', hnext', hrelocated, hquantum, hquantum'⟩ := h.applyNamed hnext
    rw [hpositions] at hnext'
    have hsame : relocation next'.quantum next.quantum = positions := by
      rw [hquantum, hquantum', hpositions]
    obtain ⟨last', hlast', hlast, hl, hl'⟩ := ih hrelocated hsame hrest
    refine ⟨last', ?_, hlast, hl.trans hquantum, hl'.trans hquantum'⟩
    rw [List.map_cons, applyEach_cons]
    exact bind_eq_ok.mpr ⟨next', hnext', hlast'⟩

/-- Locating the bits of the operands does not change how often a call is repeated. -/
theorem repetitions_locate (positions : List Nat) (gate : GateName) (operands : List Operand)
    (bits : List (List Nat)) :
    repetitions gate operands (bits.map (locate positions)) = repetitions gate operands bits := by
  have hlengths : ((operands.zip (bits.map (locate positions))).filter fun p =>
        !p.1.isIndexed).map (fun p => p.2.length) =
      ((operands.zip bits).filter fun p => !p.1.isIndexed).map fun p => p.2.length := by
    rw [List.zip_map_right, List.filter_map, List.map_map]
    exact List.map_congr_left fun p _ => length_locate positions p.2
  rw [repetitions, repetitions, hlengths]

/-- The targets of a repetition are located one by one. -/
theorem repetitionTargets_locate {positions : List Nat} {bits : List (List Nat)} {count k : Nat}
    (hbits : ∀ b ∈ bits, b.length = 1 ∨ b.length = count) (hk : k < count) :
    repetitionTargets (bits.map (locate positions)) k =
      locate positions (repetitionTargets bits k) := by
  unfold repetitionTargets
  rw [locate, List.map_map, List.map_map]
  refine List.map_congr_left fun b hb => ?_
  have hget : ∀ j < b.length, (locate positions b).getD j 0 = positions.getD (b.getD j 0) 0 := by
    intro j hj
    rw [List.getD_eq_getElem?_getD, getElem?_locate, getElem?_getD hj, Option.map_some,
      Option.getD_some]
  simp only [Function.comp_apply, length_locate]
  split
  · exact hget 0 (by omega)
  · rename_i hone
    exact hget k (((hbits b hb).resolve_left hone).symm ▸ hk)

/-- The applications of a call, with their bits located. -/
theorem Relocated.applications (h : Relocated m m') {c : GateCall} {calls : List (Applied R)}
    (hc : m.applications c = .ok calls) :
    m'.applications c =
      .ok (calls.map (relocateApplied (relocation m'.quantum m.quantum))) := by
  obtain ⟨parameters, hparameters, hc⟩ := bind_eq_ok.mp hc
  obtain ⟨bits, hbits, hc⟩ := bind_eq_ok.mp hc
  obtain ⟨count, hcount, hc⟩ := bind_eq_ok.mp hc
  obtain rfl := Except.ok.inj hc
  have hrelated := mapM_eq_ok.mp (mapError_eq_ok.mp hbits)
  have hbits' : c.operands.mapM m'.operandBits =
      .ok (bits.map (locate (relocation m'.quantum m.quantum))) :=
    mapM_eq_ok.mpr (List.forall₂_map_right_iff.mpr (hrelated.imp fun _ _ hv => h.operandBits hv))
  have hcount' : repetitions c.gate c.operands
      (bits.map (locate (relocation m'.quantum m.quantum))) = .ok count := by
    rw [repetitions_locate]
    exact mapError_eq_ok.mp hcount
  have hlengths := length_of_mem_bits (hrelated.imp fun _ _ hv => length_of_operandBits hv)
    (mapError_eq_ok.mp hcount)
  refine bind_eq_ok.mpr ⟨parameters, hparameters, bind_eq_ok.mpr ⟨_, mapError_eq_ok.mpr hbits',
    bind_eq_ok.mpr ⟨count, mapError_eq_ok.mpr hcount', congrArg Except.ok ?_⟩⟩⟩
  rw [List.map_map]
  refine List.map_congr_left fun k hk => ?_
  rw [repetitionTargets_locate hlengths (List.mem_range.mp hk)]
  rfl

/-- **A gate call.** -/
theorem Relocated.call (h : Relocated m m') {table : GateTable} {c : GateCall}
    (hc : m.call table c = ⟨after, none⟩) :
    ∃ after', m'.call table c = ⟨after', none⟩ ∧ Relocated after after' ∧
      after'.quantum = m'.quantum := by
  obtain ⟨calls, hcalls, heach⟩ := call_eq_ok.mp hc
  obtain ⟨after', heach', hafter, -, hquantum⟩ := h.applyEach rfl heach
  exact ⟨after', call_eq_ok.mpr ⟨_, h.applications hcalls, heach'⟩, hafter, hquantum⟩

/-! ### Measurements -/

/-- Measured bits are in the machine. -/
theorem Relocated.checkRange (h : Relocated m m') {name : String} {s : QuantumRegister}
    (hs : m'.quantumRegister name = .ok s) : m'.vector.checkRange s.offset s.width = .ok () :=
  h.laid'.checkRange (h.laid'.within_of_quantumRegister hs)

/-- **A measurement of a register** finds the same outcome. -/
theorem Relocated.measure (h : Relocated m m') {source target : String}
    (hm : m.measure source target = .ok after) :
    ∃ after', m'.measure source target = .ok after' ∧ Relocated after after' ∧
      after'.quantum = m'.quantum := by
  obtain ⟨q, c, outcome, vector, hq, hc, hwidth, hv, rfl⟩ := measure_eq_ok.mp hm
  obtain ⟨s, hs, hsame, hlocated⟩ := h.quantumRegister hq
  obtain ⟨vector', hv', hembeds⟩ := h.embeds.measure hlocated (hsame ▸ h.checkRange hs) hv
  rw [← hsame, ← h.draws, ← h.drawn] at hv'
  have hm' := measure_eq_ok.mpr ⟨s, c, outcome, vector', hs, (h.classicalRegister target).trans hc,
    hwidth.trans hsame.symm, hv', rfl⟩
  rw [hsame] at hm'
  exact ⟨_, hm', h.of_keeps (keeps_of_measure h.laid hm) (keeps_of_measure h.laid' hm')
    (congrArg (List.map _) h.classical) h.draws (congrArg (· + 1) h.drawn) hembeds, rfl⟩

/-- **A measurement of a qubit** finds the same outcome. -/
theorem Relocated.measureBit (h : Relocated m m') {source target : String} {i j : Nat}
    (hm : m.measureBit source i target j = .ok after) :
    ∃ after', m'.measureBit source i target j = .ok after' ∧ Relocated after after' ∧
      after'.quantum = m'.quantum := by
  obtain ⟨bit, c, outcome, vector, hbit, hc, hj, hv, rfl⟩ := measureBit_eq_ok.mp hm
  obtain ⟨bit', hbit', hlocated⟩ := h.qubit hbit
  obtain ⟨vector', hv', hembeds⟩ :=
    h.embeds.measure hlocated (h.laid'.checkRange (h.laid'.qubit_lt hbit')) hv
  rw [← h.draws, ← h.drawn] at hv'
  have hm' := measureBit_eq_ok.mpr ⟨bit', c, outcome, vector', hbit',
    (h.classicalRegister target).trans hc, hj, hv', rfl⟩
  exact ⟨_, hm', h.of_keeps (keeps_of_measureBit hm) (keeps_of_measureBit hm')
    (congrArg (List.map _) h.classical) h.draws (congrArg (· + 1) h.drawn) hembeds, rfl⟩

theorem Relocated.measureOperand (h : Relocated m m') {source target : Operand}
    (hm : m.measureOperand source target = .ok after) :
    ∃ after', m'.measureOperand source target = .ok after' ∧ Relocated after after' ∧
      after'.quantum = m'.quantum := by
  unfold Machine.measureOperand at hm ⊢
  split at hm
  · exact h.measure hm
  · exact h.measureBit hm
  · cases hm

/-! ### Resets -/

theorem Relocated.resetQuantum (h : Relocated m m') {name : String}
    (hm : m.resetQuantum name = .ok after) :
    ∃ after', m'.resetQuantum name = .ok after' ∧ Relocated after after' ∧
      after'.quantum = m'.quantum := by
  obtain ⟨r, vector, hr, hv, rfl⟩ := resetQuantum_eq_ok.mp hm
  obtain ⟨s, hs, hsame, hlocated⟩ := h.quantumRegister hr
  obtain ⟨vector', hv', hembeds⟩ := h.embeds.reset hlocated (hsame ▸ h.checkRange hs) hv
  rw [← hsame] at hv'
  have hm' := resetQuantum_eq_ok.mpr ⟨s, vector', hs, hv', rfl⟩
  exact ⟨_, hm', h.of_keeps (keeps_of_resetQuantum hm) (keeps_of_resetQuantum hm') h.classical
    h.draws h.drawn hembeds, rfl⟩

theorem Relocated.resetQubit (h : Relocated m m') {name : String} {index : Nat}
    (hm : m.resetQubit name index = .ok after) :
    ∃ after', m'.resetQubit name index = .ok after' ∧ Relocated after after' ∧
      after'.quantum = m'.quantum := by
  obtain ⟨bit, vector, hbit, hv, rfl⟩ := resetQubit_eq_ok.mp hm
  obtain ⟨bit', hbit', hlocated⟩ := h.qubit hbit
  obtain ⟨vector', hv', hembeds⟩ :=
    h.embeds.reset hlocated (h.laid'.checkRange (h.laid'.qubit_lt hbit')) hv
  have hm' := resetQubit_eq_ok.mpr ⟨bit', vector', hbit', hv', rfl⟩
  exact ⟨_, hm', h.of_keeps (keeps_of_resetQubit hm) (keeps_of_resetQubit hm') h.classical
    h.draws h.drawn hembeds, rfl⟩

theorem Relocated.resetClassical (h : Relocated m m') {name : String}
    (hm : m.resetClassical name = .ok after) :
    ∃ after', m'.resetClassical name = .ok after' ∧ Relocated after after' ∧
      after'.quantum = m'.quantum := by
  obtain ⟨r, hr, rfl⟩ := resetClassical_eq_ok.mp hm
  have hm' := resetClassical_eq_ok.mpr ⟨r, (h.classicalRegister name).trans hr, rfl⟩
  exact ⟨_, hm', h.of_keeps (keeps_of_resetClassical hm) (keeps_of_resetClassical hm')
    (congrArg (List.map _) h.classical) h.draws h.drawn h.embeds, rfl⟩

theorem Relocated.resetClassicalBit (h : Relocated m m') {name : String} {index : Nat}
    (hm : m.resetClassicalBit name index = .ok after) :
    ∃ after', m'.resetClassicalBit name index = .ok after' ∧ Relocated after after' ∧
      after'.quantum = m'.quantum := by
  obtain ⟨r, hr, hindex, rfl⟩ := resetClassicalBit_eq_ok.mp hm
  have hm' :=
    resetClassicalBit_eq_ok.mpr ⟨r, (h.classicalRegister name).trans hr, hindex, rfl⟩
  exact ⟨_, hm', h.of_keeps (keeps_of_resetClassicalBit hm) (keeps_of_resetClassicalBit hm')
    (congrArg (List.map _) h.classical) h.draws h.drawn h.embeds, rfl⟩

/-- **A reset.** Whether a name is that of a quantum register is the same in both machines where the
reset succeeds. -/
theorem Relocated.resetOperand (h : Relocated m m') {v : Operand}
    (hm : m.resetOperand v = .ok after) :
    ∃ after', m'.resetOperand v = .ok after' ∧ Relocated after after' ∧
      after'.quantum = m'.quantum := by
  have hclassical : ∀ {c : ClassicalRegister}, m.classicalRegister v.name = .ok c →
      m'.isQuantum v.name = false := fun hc =>
    h.laid'.isQuantum_of_classicalRegister ((h.classicalRegister v.name).trans hc)
  unfold Machine.resetOperand at hm ⊢
  cases hquantum : m.isQuantum v.name with
  | true =>
    rw [hquantum] at hm
    rw [h.isQuantum hquantum]
    cases hi : v.index with
    | none =>
      rw [hi] at hm
      exact h.resetQuantum hm
    | some i =>
      rw [hi] at hm
      exact h.resetQubit hm
  | false =>
    rw [hquantum] at hm
    cases hi : v.index with
    | none =>
      rw [hi] at hm
      obtain ⟨c, hc, -⟩ := resetClassical_eq_ok.mp hm
      rw [hclassical hc]
      exact h.resetClassical hm
    | some i =>
      rw [hi] at hm
      obtain ⟨c, hc, -⟩ := resetClassicalBit_eq_ok.mp hm
      rw [hclassical hc]
      exact h.resetClassicalBit hm

/-- **A quantum operation.** -/
theorem Relocated.operate (h : Relocated m m') {table : GateTable} {o : Operation}
    (ho : m.operate table o = ⟨after, none⟩) :
    ∃ after', m'.operate table o = ⟨after', none⟩ ∧ Relocated after after' ∧
      after'.quantum = m'.quantum := by
  cases o with
  | call c => exact h.call ho
  | measure source target =>
    have hm := mapError_eq_ok.mp (Outcome.ofExcept_eq_ok.mp ho)
    obtain ⟨after', hm', hafter⟩ := h.measureOperand hm
    exact ⟨after', Outcome.ofExcept_eq_ok.mpr (mapError_eq_ok.mpr hm'), hafter⟩
  | reset target =>
    have hm := mapError_eq_ok.mp (Outcome.ofExcept_eq_ok.mp ho)
    obtain ⟨after', hm', hafter⟩ := h.resetOperand hm
    exact ⟨after', Outcome.ofExcept_eq_ok.mpr (mapError_eq_ok.mpr hm'), hafter⟩

/-! ### Conditions and barriers -/

theorem Relocated.condition (h : Relocated m m') (register : Operand) (value : Expr) :
    m'.condition register value = m.condition register value := by
  unfold Machine.condition
  rw [h.classicalRegister]

theorem Relocated.checkBarrier (h : Relocated m m') {operands : List Operand}
    (hm : m.checkBarrier operands = .ok ()) : m'.checkBarrier operands = .ok () := by
  refine forM_eq_ok.mpr fun v hv => ?_
  obtain ⟨r, hr⟩ := discard_eq_ok.mp (forM_eq_ok.mp hm v hv)
  obtain ⟨s, hs, -⟩ := h.quantumRegister hr
  exact discard_eq_ok.mpr ⟨s, hs⟩

/-! ### Declarations -/

/-- A classical register whose name is not one of the moved registers. -/
theorem Relocated.declareClassical (h : Relocated m m') {name : String} {width : Nat}
    (hnew : name ∉ m'.quantum.map (·.name)) (hm : m.declareClassical name width = .ok after) :
    ∃ after', m'.declareClassical name width = .ok after' ∧ Relocated after after' ∧
      after'.quantum = m'.quantum := by
  obtain ⟨⟨hfresh, hroom⟩, rfl⟩ := declareClassical_eq_ok.mp hm
  obtain ⟨hwidth, hname⟩ := checkFresh_eq_ok.mp hfresh
  have hfresh' : m'.checkFresh name width = .ok () := by
    refine checkFresh_eq_ok.mpr ⟨hwidth, fun hmem => ?_⟩
    rcases List.mem_append.mp hmem with hq | hc
    · exact hnew hq
    · rw [h.classical] at hc
      exact hname (List.mem_append_right _ hc)
  have hm' := declareClassical_eq_ok.mpr ⟨⟨hfresh', hroom⟩, rfl⟩
  exact ⟨_, hm', ⟨laid_of_declareClassical h.laid hm, laid_of_declareClassical h.laid' hm',
    h.registers, congrArg (· ++ _) h.classical, h.draws, h.drawn, h.embeds⟩, rfl⟩

omit [RealScalar R] in
/-- A register of the other machine that `m` does not have shares no bit with those that it has. -/
theorem Relocated.not_mem_relocation [Scalar R] (h : Relocated m m') {name : String}
    {s : QuantumRegister} (hs : m'.quantumRegister name = .ok s) (hname : name ∉ m.registerNames) :
    ∀ p ∈ block s.offset s.width, p ∉ relocation m'.quantum m.quantum := by
  intro p hp hmem
  obtain ⟨r, hr, hlow, hhigh⟩ := mem_relocation.mp hmem
  obtain ⟨t, ht, hwidth⟩ := h.registers r hr
  obtain ⟨hsmem, hsname⟩ := mem_of_quantumRegister hs
  obtain ⟨htmem, htname⟩ := mem_of_quantumRegister ht
  rw [offsetIn_of_quantumRegister ht] at hlow hhigh
  obtain ⟨hslow, hshigh⟩ := mem_block.mp hp
  have hsame : s = t := h.laid'.tiled.unique (i := p - s.offset) (j := p - t.offset)
    (by omega) (by omega) (by omega) hsmem htmem
  refine hname (List.mem_append_left _ ?_)
  rw [← hsname, hsame, htname]
  exact List.mem_map_of_mem hr

/-- **A quantum register that has been moved to the front** is declared: it claims qubits of the
other machine that nothing has touched. -/
theorem Relocated.declareQuantum (h : Relocated m m') {name : String} {s : QuantumRegister}
    (hs : m'.quantumRegister name = .ok s) (hm : m.declareQuantum name s.width = .ok after) :
    Relocated after m' := by
  have hlaid := laid_of_declareQuantum h.laid hm
  obtain ⟨hfresh, -, fresh, hzero, rfl⟩ := declareQuantum_eq_ok.mp hm
  have hadded : relocation m'.quantum (m.quantum ++ [⟨name, m.qubits, s.width⟩]) =
      relocation m'.quantum m.quantum ++ block s.offset s.width := by
    rw [relocation, List.flatMap_append, ← offsetIn_of_quantumRegister hs]
    simp [relocation]
  have hlt : ∀ p ∈ block s.offset s.width, p < m'.qubits := by
    intro p hp
    have hwithin := h.laid'.within_of_quantumRegister hs
    have := (mem_block.mp hp).2
    omega
  have hembeds := h.embeds.tensor (nodup_block s.offset s.width)
    (h.not_mem_relocation hs (checkFresh_eq_ok.mp hfresh).2) hlt (by rwa [length_block])
  rw [← hadded] at hembeds
  refine ⟨hlaid, h.laid', fun r hr => ?_, h.classical, h.draws, h.drawn, hembeds⟩
  rcases List.mem_append.mp hr with hr | hr
  · exact h.registers r hr
  · obtain rfl := List.mem_singleton.mp hr
    exact ⟨s, hs, rfl⟩

end Operations

end Machine

end OpenQasm
