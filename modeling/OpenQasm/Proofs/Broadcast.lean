import OpenQasm.Proofs.Calling
import OpenQasm.Proofs.Exact
import OpenQasm.Proofs.Measuring

/-!
# Calls on whole registers

A call that is given whole registers stands for one call for each of their elements, in ascending
order: `GateCall.element` replaces the registers by elements and leaves the rest as it is. The bits
are looked up and the parameters evaluated once, before anything is applied. This makes no
difference: an application changes neither the registers nor the gates, and the parameters are
evaluated without bindings.

* `Spans.applications_eq`: the applications that the call, and the call for an element, stand for.
* `run_eq_withMachine`: statements that each act on the machine, as one sequence on the machine.
* `execute_call_eq_run`: a call is the run of its elements.
* **`Executor.broadcast_elementwise`**: this, and what a call does whose registers differ in width.
-/

namespace OpenQasm

/-- An operand with a whole register replaced by one of its elements. -/
def Operand.element (v : Operand) (k : Nat) : Operand := { v with index := some (v.index.getD k) }

/-- A call with the whole registers among its operands replaced by one element of each. -/
def GateCall.element (c : GateCall) (k : Nat) : GateCall :=
  { c with operands := c.operands.map (·.element k) }

/-- Each item of a list has its partner in a related one. -/
theorem exists_zip_of_forall₂ {α β : Type} {related : α → β → Prop} {xs : List α} {ys : List β}
    (h : List.Forall₂ related xs ys) {x : α} (hx : x ∈ xs) :
    ∃ y, (x, y) ∈ xs.zip ys ∧ related x y := by
  induction h with
  | nil => exact absurd hx List.not_mem_nil
  | cons hab _ ih =>
    rcases List.mem_cons.mp hx with rfl | hx
    · exact ⟨_, List.mem_cons_self, hab⟩
    · obtain ⟨y, hy, hrelated⟩ := ih hx
      exact ⟨y, List.mem_cons_of_mem _ hy, hrelated⟩

namespace Outcome

variable {S α : Type}

theorem forAll_singleton (activity : S → α → Outcome S) (s : S) (a : α) :
    forAll activity s [a] = activity s a := by
  rw [forAll]
  split
  · rename_i h
    exact h.symm
  · rfl

end Outcome

namespace Machine

variable {R : Type} {m after : Machine R} {gate : GateName} {operands : List Operand}
  {bits : List (List Nat)} {n : Nat}

/-- The operands of a call on registers of `n` qubits: some of them are whole registers, all of
those have `n` qubits, and the elements among them exist. -/
structure Spans (m : Machine R) (operands : List Operand) (n : Nat) : Prop where
  whole : ∃ v ∈ operands, v.index = none
  width : ∀ v ∈ operands, v.index = none → ∃ r, m.quantumRegister v.name = .ok r ∧ r.width = n
  within : ∀ v ∈ operands, ∀ i, v.index = some i →
    ∃ r, m.quantumRegister v.name = .ok r ∧ i < r.width

/-! ## How often a call is repeated -/

/-- A call is repeated for each bit of the whole registers that it is given. -/
theorem repetitions_of_length (hwhole : ∃ p ∈ operands.zip bits, p.1.isIndexed = false)
    (hlength : ∀ p ∈ operands.zip bits, p.1.isIndexed = false → p.2.length = n) :
    repetitions gate operands bits = .ok n := by
  have hmem : ∀ l ∈ ((operands.zip bits).filter fun p => !p.1.isIndexed).map fun p => p.2.length,
      l = n := by
    intro l hl
    obtain ⟨p, hp, rfl⟩ := List.mem_map.mp hl
    obtain ⟨hp, hindexed⟩ := List.mem_filter.mp hp
    exact hlength p hp (by simpa using hindexed)
  unfold repetitions
  split
  · rename_i hnone
    obtain ⟨p, hp, hindexed⟩ := hwhole
    have hfound : p ∈ (operands.zip bits).filter fun p => !p.1.isIndexed :=
      List.mem_filter.mpr ⟨hp, by rw [hindexed]; rfl⟩
    rw [List.map_eq_nil_iff.mp hnone] at hfound
    exact absurd hfound List.not_mem_nil
  · rename_i l others hsome
    rw [hsome] at hmem
    obtain ⟨rfl, hothers⟩ := List.forall_mem_cons.mp hmem
    rw [if_pos (List.all_eq_true.mpr fun other hother => beq_iff_eq.mpr (hothers other hother))]

/-- A call that is given elements only is executed once. -/
theorem repetitions_of_isIndexed (h : ∀ v ∈ operands, v.isIndexed = true) :
    repetitions gate operands bits = .ok 1 := by
  have hnone : (operands.zip bits).filter (fun p => !p.1.isIndexed) = [] := by
    refine List.filter_eq_nil_iff.mpr fun p hp => ?_
    rw [h p.1 (List.of_mem_zip hp).1]
    exact Bool.false_ne_true
  rw [repetitions, hnone]
  rfl

/-! ## The bits of an element -/

/-- An operand names bits of its register, and its element the one that a repetition takes. -/
theorem Spans.operandBits (h : m.Spans operands n) {v : Operand} (hv : v ∈ operands) :
    ∃ named, m.operandBits v = .ok named ∧ (v.isIndexed = false → named.length = n) ∧
      ∀ k < n, m.operandBits (v.element k) =
        .ok [if named.length = 1 then named.getD 0 0 else named.getD k 0] := by
  obtain ⟨name, index, pos⟩ := v
  cases index with
  | some i =>
    obtain ⟨r, hr, hi⟩ := h.within _ hv i rfl
    have hqubit : m.qubit name i = .ok (r.offset + i) := qubit_eq_ok.mpr ⟨r, hr, hi, rfl⟩
    have hbits : m.operandBits ⟨name, some i, pos⟩ = .ok [r.offset + i] :=
      bind_eq_ok.mpr ⟨_, hqubit, rfl⟩
    exact ⟨_, hbits, nofun, fun _ _ => hbits⟩
  | none =>
    obtain ⟨r, hr, rfl⟩ := h.width _ hv rfl
    have hlength : r.positions.length = r.width := by
      rw [QuantumRegister.positions, List.length_map, List.length_range]
    refine ⟨r.positions, bind_eq_ok.mpr ⟨r, hr, rfl⟩, fun _ => hlength, fun k hk => ?_⟩
    have hqubit : m.qubit name k = .ok (r.offset + k) := qubit_eq_ok.mpr ⟨r, hr, hk, rfl⟩
    have hget : ∀ i < r.width, r.positions.getD i 0 = r.offset + i := fun i hi => by
      rw [QuantumRegister.positions, List.getD_eq_getElem?_getD, List.getElem?_map,
        List.getElem?_range hi]
      rfl
    refine bind_eq_ok.mpr ⟨_, hqubit, congrArg (fun b => Except.ok [b]) ?_⟩
    split
    · obtain rfl : k = 0 := by omega
      exact (hget 0 hk).symm
    · exact (hget k hk).symm

/-- The bits of all operands, and of their elements. -/
theorem Spans.mapM_operandBits (h : m.Spans operands n) (gate : GateName) :
    ∃ bits, operands.mapM m.operandBits = .ok bits ∧ repetitions gate operands bits = .ok n ∧
      ∀ k < n, (operands.map (·.element k)).mapM m.operandBits =
        .ok ((repetitionTargets bits k).map fun b => [b]) := by
  have hbits : Ends (operands.mapM m.operandBits)
      (List.Forall₂ (fun v named => (v.isIndexed = false → named.length = n) ∧
        ∀ k < n, m.operandBits (v.element k) =
          .ok [if named.length = 1 then named.getD 0 0 else named.getD k 0]) operands)
      (fun _ => False) := by
    refine Ends.mapM fun v hv => ?_
    obtain ⟨named, hnamed, hspec⟩ := h.operandBits hv
    rw [hnamed]
    exact hspec
  cases hmap : operands.mapM m.operandBits with
  | error e => exact (hbits.error_of_eq hmap).elim
  | ok bits =>
    rw [hmap] at hbits
    have hrelated := List.forall₂_iff_zip.mp hbits
    refine ⟨bits, rfl, repetitions_of_length ?_ fun p hp => (hrelated.2 hp).1, fun k hk => ?_⟩
    · obtain ⟨v, hv, hwhole⟩ := h.whole
      obtain ⟨named, hnamed, -⟩ := exists_zip_of_forall₂ hbits hv
      exact ⟨(v, named), hnamed, by rw [Operand.isIndexed, hwhole]; rfl⟩
    · rw [repetitionTargets, List.map_map, mapM_eq_ok, List.forall₂_map_left_iff,
        List.forall₂_map_right_iff]
      exact hbits.imp fun v named hspec => hspec.2 k hk

/-! ## The applications of a call -/

variable [Scalar R] {table : GateTable} {c : GateCall}

/-- A machine with the same quantum registers prepares a call in the same way. -/
theorem applications_congr (h : after.quantum = m.quantum) (c : GateCall) :
    after.applications c = m.applications c := by
  have hbits : after.operandBits = m.operandBits := by
    funext v
    unfold Machine.operandBits qubit quantumRegister
    rw [h]
  rw [applications, applications, hbits]

/-- The applications of a call whose operands name these bits. -/
theorem applications_of_bits {count : Nat} (hbits : c.operands.mapM m.operandBits = .ok bits)
    (hcount : repetitions c.gate c.operands bits = .ok count) :
    m.applications c = (GateTable.values [] c.passed).map fun parameters =>
      (List.range count).map fun k => ⟨c.gate, parameters, repetitionTargets bits k⟩ := by
  rw [applications, hbits]
  cases GateTable.values ([] : Bindings R) c.passed with
  | error e => rfl
  | ok parameters =>
    simp only [bind, Except.bind, Except.mapError, hcount, pure, Except.pure, Except.map]

/-- **The applications of a call on registers** are those of the calls on their elements. -/
theorem Spans.applications_eq (h : m.Spans c.operands n) :
    ∃ targets : Nat → List Nat,
      (m.applications c = (GateTable.values [] c.passed).map fun parameters =>
        (List.range n).map fun k => ⟨c.gate, parameters, targets k⟩) ∧
      ∀ k < n, m.applications (c.element k) =
        (GateTable.values [] c.passed).map fun parameters => [⟨c.gate, parameters, targets k⟩] := by
  obtain ⟨bits, hbits, hcount, helements⟩ := h.mapM_operandBits c.gate
  refine ⟨repetitionTargets bits, applications_of_bits hbits hcount, fun k hk => ?_⟩
  have hone : repetitions c.gate (c.element k).operands
      ((repetitionTargets bits k).map fun b => [b]) = .ok 1 := by
    refine repetitions_of_isIndexed fun v hv => ?_
    obtain ⟨w, -, rfl⟩ := List.mem_map.mp hv
    rfl
  -- the only repetition takes the bits that the elements name
  have htargets : repetitionTargets ((repetitionTargets bits k).map fun b => [b]) 0 =
      repetitionTargets bits k := by
    rw [repetitionTargets, List.map_map]
    exact List.map_id _
  rw [applications_of_bits (c := c.element k) (helements k hk) hone]
  simp only [List.range_one, List.map_cons, List.map_nil, htargets]
  rfl

/-! ## Registers that differ in width -/

omit [Scalar R] in
/-- A call is repeated as often as each of its whole registers has qubits. -/
theorem width_of_repetitions {count : Nat} (hbits : operands.mapM m.operandBits = .ok bits)
    (hcount : repetitions gate operands bits = .ok count) {v : Operand} (hv : v ∈ operands)
    (hwhole : v.index = none) {q : QuantumRegister} (hq : m.quantumRegister v.name = .ok q) :
    q.width = count := by
  obtain ⟨named, hpair, hnamed⟩ := exists_zip_of_forall₂ (mapM_eq_ok.mp hbits) hv
  have hpositions : m.operandBits v = .ok q.positions := by
    rw [Machine.operandBits, hwhole]
    exact bind_eq_ok.mpr ⟨q, hq, rfl⟩
  obtain rfl := Except.ok.inj (hpositions.symm.trans hnamed)
  have hlength := length_of_repetitions hcount _ hpair (by rw [Operand.isIndexed, hwhole]; rfl)
  rwa [QuantumRegister.positions, List.length_map, List.length_range] at hlength

omit [Scalar R] in
theorem error_of_repetitions {fault : RunFault}
    (h : repetitions gate operands bits = .error fault) :
    fault = .sizeMismatch (.broadcast gate) := by
  unfold repetitions at h
  split at h
  · cases h
  · split at h
    · cases h
    · exact (Except.error.inj h).symm

/-- A call on registers of different widths has no applications. -/
theorem applications_of_width_ne {v w : Operand} (hv : v ∈ c.operands) (hw : w ∈ c.operands)
    (hvwhole : v.index = none) (hwwhole : w.index = none) {q r : QuantumRegister}
    (hq : m.quantumRegister v.name = .ok q) (hr : m.quantumRegister w.name = .ok r)
    (hne : q.width ≠ r.width) :
    ∃ e, m.applications c = .error e ∧
      ((∃ parameters, GateTable.values ([] : Bindings R) c.passed = .ok parameters) →
        (∀ u ∈ c.operands, ∃ named, m.operandBits u = .ok named) →
        e.fault = .sizeMismatch (.broadcast c.gate)) := by
  unfold applications
  cases GateTable.values ([] : Bindings R) c.passed with
  | error e => exact ⟨e, rfl, fun ⟨_, h⟩ => nomatch h⟩
  | ok parameters =>
    cases hbits : c.operands.mapM m.operandBits with
    | error fault =>
      refine ⟨.bare fault, rfl, fun _ hnamed => ?_⟩
      have hall : Ends (c.operands.mapM m.operandBits) (List.Forall₂ (fun _ _ => True) c.operands)
          fun _ => False := by
        refine Ends.mapM fun u hu => ?_
        obtain ⟨named, hnamed⟩ := hnamed u hu
        rw [hnamed]
        trivial
      exact (hall.error_of_eq hbits).elim
    | ok bits =>
      cases hcount : repetitions c.gate c.operands bits with
      | error fault =>
        refine ⟨.bare fault, ?_, fun _ _ => error_of_repetitions hcount⟩
        simp only [bind, Except.bind, Except.mapError, hcount]
      | ok count =>
        exact absurd ((width_of_repetitions hbits hcount hv hvwhole hq).trans
          (width_of_repetitions hbits hcount hw hwwhole hr).symm) hne

/-- An application leaves the quantum registers as they are. -/
theorem quantum_of_application {a : Applied R}
    (h : Outcome.ofExcept m (m.applyNamed table a.gate a.parameters a.bits) = ⟨after, none⟩) :
    after.quantum = m.quantum :=
  (keeps_of_applyNamed (Outcome.ofExcept_eq_ok.mp h)).quantum

end Machine

/-! ## Statements as a sequence on the machine -/

namespace Executor

open Machine

variable {R : Type} [Scalar R] {pos : SourcePos}

/-- Statements that each do something to the machine only, one after the other. -/
theorem run_eq_withMachine {α : Type} (gates : GateTable) {statement : α → Statement}
    {activity : Machine R → α → Outcome (Machine R)} (good : Machine R → Prop) {items : List α}
    (hstep : ∀ m, good m → ∀ a ∈ items, (⟨m, gates⟩ : Executor R).execute (statement a) =
      ((⟨m, gates⟩ : Executor R).withMachine (activity m a)).located pos)
    (hgood : ∀ m, good m → ∀ a after, activity m a = ⟨after, none⟩ → good after)
    {m : Machine R} (hm : good m) :
    (⟨m, gates⟩ : Executor R).run (items.map statement) =
      ((⟨m, gates⟩ : Executor R).withMachine (Outcome.forAll activity m items)).located pos := by
  induction items generalizing m with
  | nil => rfl
  | cons a rest ih =>
    obtain ⟨hfirst, hrest⟩ := List.forall_mem_cons.mp fun b hb => hstep m hm b hb
    rw [List.map_cons, run, Outcome.forAll, Outcome.forAll, hfirst]
    cases hactivity : activity m a with
    | mk after error? =>
      cases error? with
      | some e => rfl
      | none =>
        exact ih (fun m hm b hb => hstep m hm b (List.mem_cons_of_mem _ hb))
          (hgood m hm a after hactivity)

/-- **A call on registers is the run of the calls on their elements.** -/
theorem execute_call_eq_run (x : Executor R) {c : GateCall} {n : Nat} (hn : n ≠ 0)
    (h : x.machine.Spans c.operands n) (pos : SourcePos) :
    x.execute ⟨.operation (.call c), pos⟩ =
      x.run ((List.range n).map fun k => ⟨.operation (.call (c.element k)), pos⟩) := by
  obtain ⟨targets, happlications, helements⟩ := h.applications_eq
  show (x.withMachine (x.machine.call x.gates c)).located pos = _
  rw [call_eq, happlications]
  cases hvalues : GateTable.values ([] : Bindings R) c.passed with
  | error e =>
    -- the parameters are the first thing that fails in the first element as well
    obtain ⟨k, rfl⟩ := Nat.exists_eq_succ_of_ne_zero hn
    have hfirst : x.execute ⟨.operation (.call (c.element 0)), pos⟩ =
        ⟨x, some (.located pos e)⟩ := by
      show (x.withMachine (x.machine.call x.gates (c.element 0))).located pos = _
      rw [call_eq, helements 0 (Nat.succ_pos k), hvalues]
      rfl
    rw [List.range_succ_eq_map, List.map_cons, run, Outcome.forAll, hfirst]
    rfl
  | ok parameters =>
    show (x.withMachine (Outcome.forAll _ x.machine ((List.range n).map _))).located pos = _
    rw [Outcome.forAll_map]
    refine (run_eq_withMachine x.gates (fun m => m.quantum = x.machine.quantum)
      (fun m hm k hk => ?_) (fun m hm k after happly => ?_) rfl).symm
    · have hcall : m.applications (c.element k) = .ok [⟨c.gate, parameters, targets k⟩] := by
        rw [applications_congr hm, helements k (List.mem_range.mp hk), hvalues]
        rfl
      show ((⟨m, x.gates⟩ : Executor R).withMachine (m.call x.gates (c.element k))).located pos = _
      rw [call_eq, hcall]
      exact congrArg (fun o => ((⟨m, x.gates⟩ : Executor R).withMachine o).located pos)
        (Outcome.forAll_singleton ..)
    · exact (quantum_of_application happly).trans hm

/-- A call on registers of different widths changes nothing. -/
theorem execute_call_of_width_ne (x : Executor R) {c : GateCall} {v w : Operand}
    (hv : v ∈ c.operands) (hw : w ∈ c.operands) (hvwhole : v.index = none)
    (hwwhole : w.index = none) {q r : QuantumRegister}
    (hq : x.machine.quantumRegister v.name = .ok q)
    (hr : x.machine.quantumRegister w.name = .ok r) (hne : q.width ≠ r.width) (pos : SourcePos) :
    ∃ e, x.execute ⟨.operation (.call c), pos⟩ = ⟨x, some e⟩ ∧
      ((∃ parameters, GateTable.values ([] : Bindings R) c.passed = .ok parameters) →
        (∀ u ∈ c.operands, ∃ named, x.machine.operandBits u = .ok named) →
        e.fault = .sizeMismatch (.broadcast c.gate)) := by
  obtain ⟨e, he, hfault⟩ := applications_of_width_ne hv hw hvwhole hwwhole hq hr hne
  refine ⟨.located pos e, ?_, hfault⟩
  show (x.withMachine (x.machine.call x.gates c)).located pos = _
  rw [call_eq, he]
  rfl

/-- **Broadcasting is elementwise.** In every executor without empty registers, such as those that
statements lead to, a call on registers of one width leaves the same executor, and the same error if
there is one, as the calls on their elements, executed in ascending order up to the first that
fails. A call on registers of different widths fails and changes nothing; the widths are the reason
wherever the parameters have values and the operands exist. -/
theorem broadcast_elementwise :
    (∀ (maxQubits : Nat) (draws : Nat → R) (x : Executor R), Reached maxQubits draws x →
      ∀ r ∈ x.machine.quantum, r.width ≠ 0) ∧
    ∀ x : Executor R, (∀ r ∈ x.machine.quantum, r.width ≠ 0) → ∀ (c : GateCall) (pos : SourcePos),
      (∀ n, x.machine.Spans c.operands n →
        x.execute ⟨.operation (.call c), pos⟩ =
          x.run ((List.range n).map fun k => ⟨.operation (.call (c.element k)), pos⟩)) ∧
      ∀ v ∈ c.operands, ∀ w ∈ c.operands, v.index = none → w.index = none →
        ∀ q r, x.machine.quantumRegister v.name = .ok q →
          x.machine.quantumRegister w.name = .ok r → q.width ≠ r.width →
          ∃ e, x.execute ⟨.operation (.call c), pos⟩ = ⟨x, some e⟩ ∧
            ((∃ parameters, GateTable.values ([] : Bindings R) c.passed = .ok parameters) →
              (∀ u ∈ c.operands, ∃ named, x.machine.operandBits u = .ok named) →
              e.fault = .sizeMismatch (.broadcast c.gate)) := by
  refine ⟨fun maxQubits draws x hx => hx.laid.quantum_width, fun x hwidth c pos => ⟨?_, ?_⟩⟩
  · intro n hspans
    obtain ⟨v, hv, hwhole⟩ := hspans.whole
    obtain ⟨r, hr, rfl⟩ := hspans.width v hv hwhole
    exact execute_call_eq_run x (hwidth r (mem_of_quantumRegister hr).1) hspans pos
  · intro v hv w hw hvwhole hwwhole q r hq hr hne
    exact execute_call_of_width_ne x hv hw hvwhole hwwhole hq hr hne pos

/-- Where the statements below stand. -/
def pairedPos : SourcePos := ⟨"paired.qasm", 1, 1⟩

/-- Two registers of two qubits, and one of a single qubit. -/
noncomputable def paired : Executor ℝ :=
  ((((initial 24 fun _ => (0 : ℝ)).execute ⟨.register .quantum "a" 2, pairedPos⟩).state.execute
    ⟨.register .quantum "b" 2, pairedPos⟩).state.execute
      ⟨.register .quantum "c" 1, pairedPos⟩).state

/-- A controlled flip of one operand by another. -/
def pairedCall (control target : String) (controlIndex targetIndex : Option Nat) : GateCall :=
  ⟨.controlledNot, none, [⟨control, controlIndex, pairedPos⟩, ⟨target, targetIndex, pairedPos⟩]⟩

/-- The flips of two qubits by two others are two flips; one qubit cannot be flipped by two. -/
theorem broadcast_elementwise_paired :
    paired.execute ⟨.operation (.call (pairedCall "a" "b" none none)), pairedPos⟩ =
        paired.run [⟨.operation (.call (pairedCall "a" "b" (some 0) (some 0))), pairedPos⟩,
          ⟨.operation (.call (pairedCall "a" "b" (some 1) (some 1))), pairedPos⟩] ∧
      ∃ e, paired.execute ⟨.operation (.call (pairedCall "a" "c" none none)), pairedPos⟩ =
          ⟨paired, some e⟩ ∧
        e.fault = .sizeMismatch (.broadcast .controlledNot) := by
  obtain ⟨hreached, hbroadcast⟩ := broadcast_elementwise (R := ℝ)
  have hwidth := hreached 24 (fun _ => 0) paired (.execute _ (.execute _ (.execute _ .initial)))
  constructor
  · refine (hbroadcast paired hwidth (pairedCall "a" "b" none none) pairedPos).1 2 ?_
    refine ⟨⟨_, List.mem_cons_self, rfl⟩, ?_, ?_⟩
    · intro v hv hindex
      simp only [pairedCall, List.mem_cons, List.not_mem_nil, or_false] at hv
      rcases hv with rfl | rfl
      · exact ⟨⟨"a", 0, 2⟩, rfl, rfl⟩
      · exact ⟨⟨"b", 2, 2⟩, rfl, rfl⟩
    · intro v hv i hi
      simp only [pairedCall, List.mem_cons, List.not_mem_nil, or_false] at hv
      rcases hv with rfl | rfl <;> cases hi
  · obtain ⟨e, hexecute, hfault⟩ :=
      (hbroadcast paired hwidth (pairedCall "a" "c" none none) pairedPos).2
        _ List.mem_cons_self _ (List.mem_cons_of_mem _ List.mem_cons_self) rfl rfl
        ⟨"a", 0, 2⟩ ⟨"c", 4, 1⟩ rfl rfl (by decide)
    refine ⟨e, hexecute, hfault ⟨[], rfl⟩ fun u hu => ?_⟩
    simp only [pairedCall, List.mem_cons, List.not_mem_nil, or_false] at hu
    rcases hu with rfl | rfl
    · exact ⟨[0, 1], rfl⟩
    · exact ⟨[4], rfl⟩

end Executor

end OpenQasm
