import OpenQasm.Proofs.Apart

/-!
# What can still go wrong in a statement

Calls, operations and conditions on a laid out machine whose registers and gates agree with an
environment in which they are legal. A call applies its gate once for each element of the registers
it is given, always to qubits that exist and to as many as the gate takes (`ends_applications`), so
every application ends as `ends_apply` says (`remains_of_call`).
-/

namespace OpenQasm

/-! ## Running a sequence -/

/-- The error of a sequence is that of one of its items, in a state that those before have left. -/
theorem Outcome.error_of_forAll {S α : Type} {activity : S → α → Outcome S} {good : S → Prop} :
    ∀ {items : List α} {s : S} {e : RunError},
      (∀ s a, a ∈ items → good s → ∀ after, activity s a = ⟨after, none⟩ → good after) →
      good s → (forAll activity s items).error? = some e →
      ∃ s a, a ∈ items ∧ good s ∧ (activity s a).error? = some e
  | [], _, _, _, _, h => nomatch h
  | a :: rest, s, e, hstep, hs, h => by
    rw [forAll] at h
    split at h
    · rename_i after hafter
      have hgood := hstep s a List.mem_cons_self hs after hafter
      obtain ⟨t, b, hb, ht, he⟩ := error_of_forAll
        (fun s b hb => hstep s b (List.mem_cons_of_mem _ hb)) hgood h
      exact ⟨t, b, List.mem_cons_of_mem _ hb, ht, he⟩
    · exact ⟨s, a, List.mem_cons_self, hs, h⟩

theorem Outcome.ends_of_ofExcept {S : Type} {s : S} {x : Except RunError S} {post : S → Prop}
    {fault : RunError → Prop} (h : Ends x post fault) {e : RunError}
    (he : (ofExcept s x).error? = some e) : fault e := by
  cases x with
  | error error =>
    obtain rfl := Option.some.inj he
    exact h
  | ok after => cases he

namespace Machine

variable {R : Type} {m : Machine R} {env : Env} {named : Prop} {beyond : RunFault → Prop}

/-! ## How often a call is repeated -/

/-- The whole registers among the operands of a repeated call have one bit for each repetition. -/
theorem length_of_repetitions {gate : GateName} {operands : List Operand} {bits : List (List Nat)}
    {count : Nat} (h : repetitions gate operands bits = .ok count) :
    ∀ p ∈ operands.zip bits, p.1.isIndexed = false → p.2.length = count := by
  intro p hp hindex
  have hmem : p.2.length ∈
      ((operands.zip bits).filter fun p => !p.1.isIndexed).map fun p => p.2.length :=
    List.mem_map_of_mem (List.mem_filter.mpr ⟨hp, by rw [hindex]; rfl⟩)
  unfold repetitions at h
  split at h
  · rename_i hnone
    rw [hnone] at hmem
    exact absurd hmem List.not_mem_nil
  · rename_i n others hsome
    split at h
    · rename_i hall
      obtain rfl := Except.ok.inj h
      rw [hsome] at hmem
      rcases List.mem_cons.mp hmem with hn | hother
      · exact hn
      · simpa using List.all_eq_true.mp hall _ hother
    · cases h

theorem ends_repetitions (gate : GateName) (operands : List Operand) (bits : List (List Nat)) :
    Ends (repetitions gate operands bits) (fun _ => True) (RunFault.Remains named beyond) := by
  unfold repetitions
  split
  · trivial
  · split
    · trivial
    · trivial

/-- An element names one bit. -/
theorem length_of_operandBits {v : Operand} {bits : List Nat} (h : m.operandBits v = .ok bits)
    (hindexed : v.isIndexed = true) : bits.length = 1 := by
  unfold operandBits at h
  cases hi : v.index with
  | some i =>
    rw [hi] at h
    obtain ⟨bit, -, h⟩ := bind_eq_ok.mp h
    obtain rfl := Except.ok.inj h
    rfl
  | none =>
    rw [Operand.isIndexed, hi] at hindexed
    cases hindexed

/-- The operands of a call name one bit, or one for each repetition. -/
theorem length_of_mem_bits {gate : GateName} {operands : List Operand} {bits : List (List Nat)}
    {count : Nat}
    (hbits : List.Forall₂ (fun v b => v.isIndexed = true → b.length = 1) operands bits)
    (h : repetitions gate operands bits = .ok count) :
    ∀ b ∈ bits, b.length = 1 ∨ b.length = count := by
  intro b hb
  obtain ⟨i, hi, rfl⟩ := List.mem_iff_getElem.mp hb
  have hlength := hbits.length_eq
  have hzip : (operands[i], bits[i]) ∈ operands.zip bits := by
    have hz : i < (operands.zip bits).length := by
      rw [List.length_zip]
      omega
    rw [← List.getElem_zip (h := hz)]
    exact List.getElem_mem hz
  cases hindex : operands[i].isIndexed with
  | true => exact Or.inl ((List.forall₂_iff_zip.mp hbits).2 hzip hindex)
  | false => exact Or.inr (length_of_repetitions h _ hzip hindex)

/-- Every target of a repetition is one of the bits that its operand names. -/
theorem mem_repetitionTargets {gate : GateName} {operands : List Operand} {bits : List (List Nat)}
    {count k : Nat}
    (hbits : List.Forall₂ (fun v b => v.isIndexed = true → b.length = 1) operands bits)
    (h : repetitions gate operands bits = .ok count) (hk : k < count) {t : Nat}
    (ht : t ∈ repetitionTargets bits k) : ∃ b ∈ bits, t ∈ b := by
  obtain ⟨b, hb, rfl⟩ := List.mem_map.mp ht
  refine ⟨b, hb, ?_⟩
  have hget : ∀ i, i < b.length → b.getD i 0 ∈ b := by
    intro i hi
    rw [List.getD_eq_getElem?_getD, List.getElem?_eq_getElem hi]
    exact List.getElem_mem hi
  rcases length_of_mem_bits hbits h b hb with hone | hcount
  · rw [if_pos hone]
    exact hget 0 (by omega)
  · split
    · exact hget 0 (by omega)
    · exact hget k (by omega)

/-! ## Calls -/

variable [Scalar R] {table : GateTable}

/-- The names of a call that is not in a gate's body can be resolved: no expression has an operand,
the operands are quantum registers, and so is all that the gate leads to. -/
def ResolvesCall (m : Machine R) (table : GateTable) (c : GateCall) : Prop :=
  (∀ e ∈ c.passed, e.variables = []) ∧ (∀ v ∈ c.operands, m.isQuantum v.name = true) ∧
    table.Resolves c.gate

/-- The applications of a legal call have the parameters and as many targets as it passes, all of
them qubits of the machine. -/
theorem ends_applications (hm : m.Laid) (ha : m.Agrees env) (hglobal : env.Global) {c : GateCall}
    (hc : env.LegalCall c) (hnamed : named → m.ResolvesCall table c) :
    Ends (m.applications c)
      (fun calls => ∀ a ∈ calls, a.gate = c.gate ∧ a.parameters.length = c.passed.length ∧
        a.bits.length = c.operands.length ∧ ∀ b ∈ a.bits, b < m.qubits)
      (·.fault.Remains named beyond) := by
  have hvalues : Ends (GateTable.values ([] : Bindings R) c.passed)
      (·.length = c.passed.length) (·.fault.Remains named beyond) := by
    refine GateTable.ends_values fun hn e he v hv => ?_
    rw [(hnamed hn).1 e he] at hv
    exact absurd hv List.not_mem_nil
  have hbits : Ends (c.operands.mapM m.operandBits)
      (List.Forall₂ (fun v bits => (∀ b ∈ bits, b < m.qubits) ∧
        (v.isIndexed = true → bits.length = 1)) c.operands) (RunFault.Remains named beyond) := by
    refine Ends.mapM fun v hv => ?_
    obtain ⟨width, hregister⟩ := (hc.2.2 v hv).register hglobal
    exact ends_operandBits hm ha hregister fun hn => (hnamed hn).2.1 v hv
  unfold applications
  refine hvalues.bind fun parameters _ hlength => ?_
  refine hbits.bare.bind fun bits _ hrelated => ?_
  refine (ends_repetitions c.gate c.operands bits).bare.bind fun count hcount _ => ?_
  intro a ha
  obtain ⟨k, hk, rfl⟩ := List.mem_map.mp ha
  refine ⟨rfl, hlength, ?_, fun t ht => ?_⟩
  · rw [repetitionTargets, List.length_map]
    exact hrelated.length_eq.symm
  · obtain ⟨b, hb, htb⟩ := mem_repetitionTargets (hrelated.imp fun _ _ h => h.2)
      (mapError_eq_ok.mp hcount) (List.mem_range.mp hk) ht
    exact forall_right_of_forall₂ (fun _ _ h => h.1) hrelated b hb t htb

/-- One application, of a gate as it is declared. -/
theorem ends_applyNamed (htable : table.Agrees env) {gate : GateName} {parameters : List R}
    {targets : List Nat} (htakes : env.Takes gate parameters.length targets.length)
    (hlt : ∀ q ∈ targets, q < m.qubits) (hnamed : named → table.Resolves gate)
    (hbeyond : ∀ e, table.Exceeds gate m.qubits e → beyond (.algebra e)) :
    Ends (m.applyNamed table gate parameters targets) (fun _ => True)
      (·.fault.Remains named beyond) := by
  unfold applyNamed
  refine (GateTable.ends_instantiateWithin htable htakes hnamed).bind fun gate hgate hfits => ?_
  refine (ends_apply hfits hlt fun hcount e he => hbeyond e ?_).bare
  exact GateTable.exceeds_of_widths hgate hfits hcount he

/-- **A legal call** has only the faults that remain, whichever of its applications fails. -/
theorem remains_of_call (hm : m.Laid) (ha : m.Agrees env) (hglobal : env.Global)
    (htable : table.Agrees env) {c : GateCall} (hc : env.LegalCall c)
    (hnamed : named → m.ResolvesCall table c)
    (hbeyond : ∀ e, table.Exceeds c.gate m.qubits e → beyond (.algebra e)) {e : RunError}
    (h : (m.call table c).error? = some e) : e.fault.Remains named beyond := by
  have happlications : Ends (m.applications c) _ (·.fault.Remains named beyond) :=
    ends_applications hm ha hglobal hc hnamed
  rw [call_eq] at h
  split at h
  · rename_i hfailed
    obtain rfl := Option.some.inj h
    exact happlications.error_of_eq hfailed
  · rename_i calls hcalls
    rw [hcalls] at happlications
    -- the qubits of a machine do not change while its applications run
    have hstep : ∀ (next : Machine R) (a : Applied R), a ∈ calls → m.Keeps next → ∀ after,
        Outcome.ofExcept next (next.applyNamed table a.gate a.parameters a.bits) = ⟨after, none⟩ →
        m.Keeps after := by
      intro next a _ hkeeps after hafter
      have hlast : next.Keeps
          (Outcome.ofExcept next (next.applyNamed table a.gate a.parameters a.bits)).state :=
        keeps_ofExcept fun h => keeps_of_applyNamed h
      rw [hafter] at hlast
      exact hkeeps.trans hlast
    obtain ⟨next, a, hmem, hkeeps, he⟩ := Outcome.error_of_forAll hstep (Keeps.refl m) h
    obtain ⟨hgate, hparameters, hbits, hlt⟩ := happlications a hmem
    have hqubits : next.qubits = m.qubits := by rw [qubits, hkeeps.quantum, qubits]
    have happly : Ends (next.applyNamed table a.gate a.parameters a.bits) (fun _ => True)
        (·.fault.Remains named beyond) := by
      rw [hgate]
      refine ends_applyNamed htable ?_ ?_ (fun hn => (hnamed hn).2.2) ?_
      · rw [hparameters, hbits]
        exact hc.1
      · rw [hqubits]
        exact hlt
      · rw [hqubits]
        exact hbeyond
    exact Outcome.ends_of_ofExcept happly he

/-! ## Operations, conditions and barriers -/

/-- The names of an operation can be resolved. -/
def ResolvesOperation (m : Machine R) (table : GateTable) : Operation → Prop
  | .call c => m.ResolvesCall table c
  | .measure source target => m.isQuantum source.name = true ∧ m.isClassical target.name = true
  | .reset target => m.isQuantum target.name = true ∨ m.isClassical target.name = true

/-- **A legal operation** has only the faults that remain. -/
theorem remains_of_operate (hm : m.Laid) (ha : m.Agrees env) (hglobal : env.Global)
    (htable : table.Agrees env) {o : Operation} (ho : env.LegalOperation o)
    (hnamed : named → m.ResolvesOperation table o)
    (hbeyond : ∀ c, o = .call c → ∀ e, table.Exceeds c.gate m.qubits e → beyond (.algebra e))
    {e : RunError} (h : (m.operate table o).error? = some e) : e.fault.Remains named beyond := by
  cases o with
  | call c => exact remains_of_call hm ha hglobal htable ho hnamed (hbeyond c rfl) h
  | measure source target =>
    obtain ⟨hsource, htarget⟩ := ho
    obtain ⟨_, hs⟩ := hsource.register hglobal
    obtain ⟨_, ht⟩ := htarget.register hglobal
    have hmeasure : Ends ((m.measureOperand source target).mapError RunError.bare) (fun _ => True)
        (·.fault.Remains named beyond) :=
      (ends_measureOperand hm ha hs ht (fun hn => (hnamed hn).1) fun hn => (hnamed hn).2).bare
    exact Outcome.ends_of_ofExcept hmeasure h
  | reset target =>
    obtain ⟨kind, hnames⟩ := ho
    have hreset : Ends ((m.resetOperand target).mapError RunError.bare) (fun _ => True)
        (·.fault.Remains named beyond) := (ends_resetOperand hm ha hnames hnamed).bare
    exact Outcome.ends_of_ofExcept hreset h

/-- A condition on a classical register or one of its bits. -/
theorem ends_condition (ha : m.Agrees env) (hglobal : env.Global) {register : Operand}
    {value : Expr} (hr : env.Classical register)
    (hnamed : named → m.isClassical register.name = true ∧ value.variables = []) :
    Ends (m.condition register value) (fun _ => True) (·.fault.Remains named beyond) := by
  obtain ⟨width, hregister⟩ := hr.register hglobal
  have hvalue : Ends (value.evaluate ([] : Bindings R)) (fun _ => True)
      (·.fault.Remains named beyond) := by
    refine ends_evaluate fun hn v hv => ?_
    rw [(hnamed hn).2] at hv
    exact absurd hv List.not_mem_nil
  unfold condition
  refine (ends_classicalRegister fun hn => (hnamed hn).1).bare.bind fun r _ ⟨hmem, hname⟩ => ?_
  refine hvalue.bind fun x _ _ => ?_
  split
  · trivial
  · rename_i i hi
    have hlt : i < r.bits.length := by
      have hwidth := ha.classical_width hregister hmem hname
      rw [ClassicalRegister.width] at hwidth
      rw [hwidth]
      exact hregister.2 i hi
    rw [List.getElem?_eq_getElem hlt]
    trivial

omit [Scalar R] in
theorem ends_checkBarrier {operands : List Operand}
    (hnamed : named → ∀ v ∈ operands, m.isQuantum v.name = true) :
    Ends (m.checkBarrier operands) (fun _ => True) (RunFault.Remains named beyond) := by
  unfold checkBarrier
  refine Ends.forM fun v hv => ?_
  exact (ends_quantumRegister fun hn => hnamed hn v hv).bind fun _ _ _ => trivial

end Machine

end OpenQasm
