import OpenQasm.Proofs.Acceptance
import OpenQasm.Proofs.Failure
import OpenQasm.Proofs.Relocation
import OpenQasm.Proofs.Tracking

/-!
# Declaring the quantum registers first

The quantum registers of a program may be declared in front of everything else, in any order: the
program means the same, and only the bits of the basis index are permuted.

Both programs are run side by side. Where the original declares a quantum register, the other one
has it already and does nothing; every other statement is executed by both. The machines are
relocated throughout (`Executor.Relocated`).

* `Relocated.perform`, `Relocated.run`: one action, then the statements, by induction on them.
* `Machine.Untouched`, `run_declarations`: where the declarations lead that come first.
* `relocate`: the index with the block of each register moved.
* **`Program.execute_declaringFirst`**: the whole program.
-/

namespace OpenQasm

open BitIndex Kernel QuantumRegister StateVector

/-! ## Both programs side by side -/

namespace Machine

variable {R : Type}

/-- A statement whose quantum register the machine has already, and whose classical register does
not have the name of a quantum one. -/
structure Foresees (m : Machine R) (s : Statement) : Prop where
  quantum : ∀ name width, s.action.quantum? = some (name, width) →
    ∃ r, m.quantumRegister name = .ok r ∧ r.width = width
  classical : ∀ name width, s.action.classical? = some (name, width) →
    name ∉ m.quantum.map (·.name)

theorem Foresees.of_quantum_eq {m m' : Machine R} {s : Statement} (h : m.Foresees s)
    (hquantum : m'.quantum = m.quantum) : m'.Foresees s := by
  obtain ⟨hq, hc⟩ := h
  refine ⟨fun name width hs => ?_, fun name width hs => ?_⟩
  · rw [quantumRegister, hquantum]
    exact hq name width hs
  · rw [hquantum]
    exact hc name width hs

end Machine

namespace Executor

variable {R : Type} [RealScalar R] {x x' after : Executor R}

/-- Executors with the same gates whose machines are relocated. -/
structure Relocated (x x' : Executor R) : Prop where
  machine : x.machine.Relocated x'.machine
  gates : x'.gates = x.gates

/-- An outcome of the machine, taken over by both executors. -/
theorem Relocated.withMachine (h : x.Relocated x') {o o' : Outcome (Machine R)}
    (ho : x.withMachine o = ⟨after, none⟩)
    (hmachine : ∀ {m}, o = ⟨m, none⟩ →
      ∃ m', o' = ⟨m', none⟩ ∧ m.Relocated m' ∧ m'.quantum = x'.machine.quantum) :
    ∃ after', x'.withMachine o' = ⟨after', none⟩ ∧ after.Relocated after' ∧
      after'.machine.quantum = x'.machine.quantum := by
  obtain ⟨m, hm, rfl⟩ := withMachine_eq_ok.mp ho
  obtain ⟨m', hm', hrelocated, hquantum⟩ := hmachine hm
  exact ⟨_, withMachine_eq_ok.mpr ⟨m', hm', rfl⟩, ⟨hrelocated, h.gates⟩, hquantum⟩

/-- A gate that both executors declare. -/
theorem Relocated.insert (h : x.Relocated x') (name : String) (definition : GateDefinition) :
    Relocated { x with gates := x.gates.insert name definition }
      { x' with gates := x'.gates.insert name definition } where
  machine := h.machine
  gates := congrArg (GateTable.insert · name definition) h.gates

/-- **An action** that does not declare a quantum register. -/
theorem Relocated.perform (h : x.Relocated x') {a : Action} (hquantum : a.quantum? = none)
    (hclassical : ∀ name width, a.classical? = some (name, width) →
      name ∉ x'.machine.quantum.map (·.name))
    (ha : x.perform a = ⟨after, none⟩) :
    ∃ after', x'.perform a = ⟨after', none⟩ ∧ after.Relocated after' ∧
      after'.machine.quantum = x'.machine.quantum := by
  have hoperate : ∀ {o : Operation} {m : Machine R},
      x.machine.operate x.gates o = ⟨m, none⟩ →
        ∃ m', x'.machine.operate x'.gates o = ⟨m', none⟩ ∧ m.Relocated m' ∧
          m'.quantum = x'.machine.quantum := by
    intro o m hm
    rw [h.gates]
    exact h.machine.operate hm
  cases a with
  | register kind name width =>
    cases kind with
    | quantum => cases hquantum
    | classical =>
      refine h.withMachine ha fun hm => ?_
      have hdeclare := mapError_eq_ok.mp (Outcome.ofExcept_eq_ok.mp hm)
      obtain ⟨m', hm', hrelocated⟩ :=
        h.machine.declareClassical (hclassical name width rfl) hdeclare
      exact ⟨m', Outcome.ofExcept_eq_ok.mpr (mapError_eq_ok.mpr hm'), hrelocated⟩
  | gate signature body =>
    obtain ⟨rfl, -⟩ := Outcome.mk.inj ha
    exact ⟨_, rfl, h.insert _ _, rfl⟩
  | opaqueGate signature =>
    obtain ⟨rfl, -⟩ := Outcome.mk.inj ha
    exact ⟨_, rfl, h.insert _ _, rfl⟩
  | operation o => exact h.withMachine ha hoperate
  | barrier operands =>
    have hsome := mapError_eq_ok.mp (Outcome.ofExcept_eq_ok.mp ha)
    cases hb : x.machine.checkBarrier operands with
    | error e =>
      rw [hb] at hsome
      cases hsome
    | ok u =>
      rw [hb] at hsome
      obtain rfl := Except.ok.inj hsome
      refine ⟨x', Outcome.ofExcept_eq_ok.mpr (mapError_eq_ok.mpr ?_), h, rfl⟩
      rw [h.machine.checkBarrier hb]
      rfl
  | conditional register value o pos =>
    unfold Executor.perform at ha ⊢
    dsimp only at ha ⊢
    rw [h.machine.condition]
    cases hcondition : x.machine.condition register value with
    | error e =>
      rw [hcondition] at ha
      cases ha
    | ok holds =>
      rw [hcondition] at ha
      cases holds with
      | false =>
        obtain ⟨rfl, -⟩ := Outcome.mk.inj ha
        exact ⟨x', rfl, h, rfl⟩
      | true => exact h.withMachine ha hoperate

/-- **A declaration of a quantum register** that the other executor has already. -/
theorem Relocated.declares (h : x.Relocated x') {s : Statement} {name : String} {width : Nat}
    (hs : s.action.quantum? = some (name, width)) (hforesees : x'.machine.Foresees s)
    (he : x.execute s = ⟨after, none⟩) : after.Relocated x' := by
  obtain ⟨r, hr, rfl⟩ := hforesees.quantum name width hs
  rw [execute_eq, Action.eq_register_of_quantum? hs] at he
  obtain ⟨m, hm, rfl⟩ := withMachine_eq_ok.mp he
  have hdeclare := mapError_eq_ok.mp (Outcome.ofExcept_eq_ok.mp hm)
  exact ⟨h.machine.declareQuantum hr hdeclare, h.gates⟩

/-- **A run**, whose declarations of quantum registers the other one leaves out. -/
theorem Relocated.run (h : x.Relocated x') {statements : List Statement}
    (hforesees : ∀ s ∈ statements, x'.machine.Foresees s)
    (hr : x.run statements = ⟨after, none⟩) :
    ∃ after', x'.run (statements.filter (·.action.quantum?.isNone)) = ⟨after', none⟩ ∧
      after.Relocated after' ∧ after'.machine.quantum = x'.machine.quantum := by
  induction statements generalizing x x' with
  | nil =>
    obtain ⟨rfl, -⟩ := Outcome.mk.inj hr
    exact ⟨x', rfl, h, rfl⟩
  | cons s rest ih =>
    obtain ⟨hs, hrest⟩ := List.forall_mem_cons.mp hforesees
    rw [Executor.run, Outcome.forAll] at hr
    split at hr
    · rename_i next hnext
      cases hquantum : s.action.quantum? with
      | some register =>
        rw [List.filter_cons_of_neg (by simp [hquantum])]
        exact ih (h.declares hquantum hs hnext) hrest hr
      | none =>
        obtain ⟨next', hnext', hrelocated, hsame⟩ :=
          h.perform hquantum hs.classical (execute_eq.mp hnext)
        obtain ⟨after', hafter', hlast, hkept⟩ :=
          ih hrelocated (fun t ht => (hrest t ht).of_quantum_eq hsame) hr
        refine ⟨after', ?_, hlast, hkept.trans hsame⟩
        rw [List.filter_cons_of_pos (by simp [hquantum]), run_cons (execute_eq.mpr hnext')]
        exact hafter'
    · rename_i hfailed
      exact absurd hr (hfailed _)

end Executor

/-! ## The declarations that come first -/

namespace Machine

variable {R : Type}

theorem names_registers (m : Machine R) :
    (m.registers .quantum).map Prod.fst = m.quantum.map (·.name) := List.map_map

theorem sum_registers (m : Machine R) : ((m.registers .quantum).map Prod.snd).sum = m.qubits := by
  rw [qubits, totalWidth_eq_sum, registers, List.map_map]
  rfl

variable [RealScalar R] {maxQubits : Nat} {draws : Nat → R} {m : Machine R}

/-- A machine that has declared quantum registers and has done nothing else. -/
structure Untouched (maxQubits : Nat) (draws : Nat → R) (m : Machine R) : Prop where
  laid : m.Laid
  classical : m.classical = []
  draws : m.draws = draws
  drawn : m.drawn = 0
  limit : m.limit = min maxQubits StateVector.maxQubits
  get : ∀ i < 2 ^ m.qubits, m.vector.get i = if i = 0 then 1 else 0

theorem untouched_initial : Untouched maxQubits draws (initial maxQubits draws) where
  laid := laid_initial maxQubits draws
  classical := rfl
  draws := rfl
  drawn := rfl
  limit := rfl
  get i hi := by
    obtain rfl : i = 0 := Nat.lt_one_iff.mp hi
    rfl

/-- One more quantum register, within the limit. -/
theorem Untouched.declareQuantum (h : m.Untouched maxQubits draws) {name : String} {width : Nat}
    (hname : name ∉ m.quantum.map (·.name)) (hwidth : width ≠ 0)
    (hlimit : m.qubits + width ≤ min maxQubits StateVector.maxQubits) :
    ∃ after, m.declareQuantum name width = .ok after ∧ after.Untouched maxQubits draws ∧
      after.registers .quantum = m.registers .quantum ++ [(name, width)] := by
  have hfresh : m.checkFresh name width = .ok () := by
    refine checkFresh_eq_ok.mpr ⟨hwidth, ?_⟩
    rwa [registerNames, h.classical, List.map_nil, List.append_nil]
  have hwide : width ≤ StateVector.maxQubits :=
    (Nat.le_add_left ..).trans (hlimit.trans (Nat.min_le_right ..))
  obtain ⟨fresh, hzero⟩ : ∃ fresh : StateVector (Amplitude R), zeroState width = .ok fresh :=
    ⟨_, if_neg (Nat.not_lt.mpr hwide)⟩
  have hm := declareQuantum_eq_ok.mpr
    ⟨hfresh, (Nat.min_le_left ..).trans (hlimit.trans_eq h.limit.symm), _, hzero, rfl⟩
  have hlaid := laid_of_declareQuantum h.laid hm
  obtain ⟨hquantum, -⟩ := registers_of_declareQuantum hm
  refine ⟨_, hm, ⟨hlaid, h.classical, h.draws, h.drawn, h.limit, fun i hi => ?_⟩, ?_⟩
  · rw [get_tensor_zeroState hzero (hi.trans_eq hlaid.size.symm), h.laid.size,
      h.get _ (Nat.mod_lt _ (Nat.two_pow_pos _)), ← ite_and]
    refine if_congr ⟨?_, ?_⟩ rfl rfl
    · rintro ⟨hdiv, hmod⟩
      rw [← Nat.div_add_mod i (2 ^ m.qubits), hdiv, hmod, Nat.mul_zero]
    · intro hi
      rw [hi, Nat.zero_div, Nat.zero_mod]
      exact ⟨rfl, rfl⟩
  · rw [registers, hquantum, List.map_append]
    rfl

end Machine

namespace Executor

variable {R : Type} [RealScalar R] {maxQubits : Nat} {draws : Nat → R}

/-- **Declarations in a row**, of registers with names of their own that fit. -/
theorem run_declarations {declarations : List Statement} {x : Executor R}
    {registers : List (String × Nat)} (h : x.machine.Untouched maxQubits draws)
    (hdeclares : ∀ s ∈ declarations, s.action.quantum?.isSome = true)
    (hregisters : x.machine.registers .quantum ++ declarations.filterMap (·.action.quantum?) =
      registers)
    (hdistinct : (registers.map Prod.fst).Nodup) (hwidths : ∀ r ∈ registers, r.2 ≠ 0)
    (hlimit : (registers.map Prod.snd).sum ≤ min maxQubits StateVector.maxQubits) :
    ∃ machine, x.run declarations = ⟨{ x with machine }, none⟩ ∧
      machine.Untouched maxQubits draws ∧ machine.registers .quantum = registers := by
  induction declarations generalizing x with
  | nil =>
    rw [List.filterMap_nil, List.append_nil] at hregisters
    exact ⟨x.machine, rfl, h, hregisters⟩
  | cons s rest ih =>
    obtain ⟨hs, hrest⟩ := List.forall_mem_cons.mp hdeclares
    obtain ⟨⟨name, width⟩, hquantum⟩ := Option.isSome_iff_exists.mp hs
    rw [List.filterMap_cons, hquantum] at hregisters
    dsimp only at hregisters
    have hmem : (name, width) ∈ registers := by
      rw [← hregisters]
      exact List.mem_append_right _ List.mem_cons_self
    have hname : name ∉ x.machine.quantum.map (·.name) := by
      rw [← hregisters, List.map_append, List.map_cons, Machine.names_registers] at hdistinct
      exact fun hold => (List.nodup_append'.mp hdistinct).2.2 hold List.mem_cons_self
    have hfits : x.machine.qubits + width ≤ min maxQubits StateVector.maxQubits := by
      rw [← hregisters, List.map_append, List.map_cons, List.sum_append, List.sum_cons,
        Machine.sum_registers] at hlimit
      omega
    obtain ⟨m, hm, huntouched, hadded⟩ :=
      h.declareQuantum hname (hwidths _ hmem) hfits
    have hexecute : x.execute s = ⟨{ x with machine := m }, none⟩ := by
      rw [execute_eq, Action.eq_register_of_quantum? hquantum]
      exact withMachine_eq_ok.mpr ⟨m, Outcome.ofExcept_eq_ok.mpr (mapError_eq_ok.mpr hm), rfl⟩
    obtain ⟨machine, hrun, hlast⟩ := @ih { x with machine := m } huntouched hrest (by
      rw [hadded, List.append_assoc]
      exact hregisters)
    exact ⟨machine, (run_cons hexecute rest).trans hrun, hlast⟩

end Executor

/-! ## Moving the blocks of an index -/

namespace QuantumRegister

variable {moved registers : List QuantumRegister}

/-- The index whose registers have the values that they have in `i`, which is an index of the layout
`moved`: the block of each register is taken from where it stands there. -/
def relocate (moved registers : List QuantumRegister) (i : Nat) : Nat :=
  (registers.map fun r => 2 ^ r.offset * field (offsetIn moved r.name) r.width i).sum

theorem Tiled.relocate_eq {offset : Nat} (h : Tiled offset registers) (i : Nat) :
    relocate moved registers i = 2 ^ offset * gather (relocation moved registers) i := by
  induction registers generalizing offset with
  | nil => rfl
  | cons r rest ih =>
    obtain ⟨rfl, hrest⟩ := h
    calc relocate moved (r :: rest) i
        = 2 ^ r.offset * field (offsetIn moved r.name) r.width i + relocate moved rest i := rfl
      _ = 2 ^ r.offset * gather (block (offsetIn moved r.name) r.width) i +
            2 ^ (r.offset + r.width) * gather (relocation moved rest) i := by
        rw [field_eq_gather, ih hrest]
      _ = 2 ^ r.offset * gather (relocation moved (r :: rest)) i := by
        rw [relocation_cons, gather_append, length_block, Nat.mul_add, Nat.pow_add, Nat.mul_assoc]

/-- Where the two layouts have the same registers, every bit belongs to one of them. -/
theorem Tiled.clear_relocation (h : Tiled 0 moved)
    (hsame : ∀ s ∈ moved, offsetIn moved s.name = s.offset ∧
      ∃ r ∈ registers, r.name = s.name ∧ r.width = s.width)
    {i : Nat} (hi : i < 2 ^ totalWidth moved) : clear (relocation moved registers) i = 0 := by
  refine ext_bits fun b => ?_
  rw [testBit_clear, Nat.zero_testBit]
  refine ⟨fun ⟨hb, hnone⟩ => absurd ?_ hnone, nofun⟩
  have hmem : b ∈ moved.flatMap positions := by
    rw [h.flatMap_positions, List.mem_range'_1]
    exact ⟨Nat.zero_le b, (Nat.zero_add _).symm ▸ lt_of_testBit hi hb⟩
  obtain ⟨s, hs, hbs⟩ := List.mem_flatMap.mp hmem
  obtain ⟨hoffset, r, hr, hname, hwidth⟩ := hsame s hs
  refine mem_relocation.mpr ⟨r, hr, ?_⟩
  rw [hname, hwidth, hoffset]
  exact mem_block.mp hbs

end QuantumRegister

namespace Machine

variable {R : Type} {m m' : Machine R}

theorem exists_register {registers : List (String × Nat)}
    (hperm : registers.Perm (m.registers .quantum)) {name : String} {width : Nat}
    (h : (name, width) ∈ registers) : ∃ r ∈ m.quantum, r.name = name ∧ r.width = width := by
  obtain ⟨r, hr, heq⟩ := List.mem_map.mp (hperm.mem_iff.mp h)
  obtain ⟨hname, hwidth⟩ := Prod.mk.inj heq
  exact ⟨r, hr, hname, hwidth⟩

/-- **Machines with the same registers** hold the same amplitudes, at indices whose blocks are
moved. -/
theorem Relocated.get_eq [RealScalar R] (h : m.Relocated m')
    (hperm : (m'.registers .quantum).Perm (m.registers .quantum)) :
    m'.vector.size = m.vector.size ∧
      ∀ i < m'.vector.size, relocate m'.quantum m.quantum i < m.vector.size ∧
        m'.vector.get i = m.vector.get (relocate m'.quantum m.quantum i) := by
  have hqubits : m'.qubits = m.qubits := by
    rw [← sum_registers, ← sum_registers]
    exact (hperm.map Prod.snd).sum_eq
  have hgather : ∀ i, relocate m'.quantum m.quantum i =
      gather (relocation m'.quantum m.quantum) i := by
    intro i
    rw [h.laid.tiled.relocate_eq, Nat.pow_zero, Nat.one_mul]
  refine ⟨by rw [h.laid'.size, h.laid.size, hqubits], fun i hi => ?_⟩
  rw [h.laid'.size] at hi
  have hclear : clear (relocation m'.quantum m.quantum) i = 0 :=
    h.laid'.tiled.clear_relocation (fun s hs =>
      ⟨offsetIn_of_quantumRegister (h.laid'.quantumRegister_of_mem hs),
        exists_register hperm (List.mem_map.mpr ⟨s, hs, rfl⟩)⟩) hi
  rw [hgather, h.embeds.size_left, h.embeds.get i hi, if_pos hclear]
  exact ⟨gather_lt _ i, rfl⟩

end Machine

/-! ## Whole programs -/

namespace Program

/-- The statements of a program that declare quantum registers. -/
def quantumDeclarations (p : Program) : List Statement :=
  p.statements.filter (·.action.quantum?.isSome)

/-- The program that starts with these declarations, in place of its own of quantum registers. -/
def declaringFirst (p : Program) (declarations : List Statement) : Program :=
  { p with statements := declarations ++ p.statements.filter (·.action.quantum?.isNone) }

variable {p : Program} {declarations : List Statement}

theorem perm_declaringFirst (hperm : declarations.Perm p.quantumDeclarations) :
    p.statements.Perm (p.declaringFirst declarations).statements := by
  refine ((hperm.append_right _).trans ?_).symm
  have hnone : (fun s : Statement => s.action.quantum?.isNone) =
      fun s => !s.action.quantum?.isSome := by
    funext s
    rw [Option.not_isSome]
  rw [quantumDeclarations, hnone]
  exact List.filter_append_perm _ _

/-- The registers that are declared, in another order. -/
theorem perm_registers (hperm : declarations.Perm p.quantumDeclarations) :
    (declarations.filterMap (·.action.quantum?)).Perm
      (p.statements.filterMap (·.action.quantum?)) := by
  have hall : p.quantumDeclarations.filterMap (·.action.quantum?) =
      p.statements.filterMap (·.action.quantum?) := by
    rw [quantumDeclarations, List.filterMap_filter]
    refine List.filterMap_congr fun s _ => ?_
    cases s.action.quantum? <;> rfl
  rw [← hall]
  exact hperm.filterMap _

variable {R : Type} [RealScalar R] {maxQubits : Nat} {draws : Nat → R} {after : Machine R}

/-- The declarations of a program that runs can be executed first. -/
theorem run_quantumDeclarations (draws : Nat → R) {x : Executor R} (hx : x.Tracks p.statements)
    (hlimit : x.machine.limit = min maxQubits StateVector.maxQubits)
    (hperm : declarations.Perm p.quantumDeclarations) :
    ∃ machine, (Executor.initial maxQubits draws).run declarations = ⟨⟨machine, []⟩, none⟩ ∧
      machine.Untouched maxQubits draws ∧
      machine.registers .quantum = declarations.filterMap (·.action.quantum?) := by
  have hregisters : (declarations.filterMap (·.action.quantum?)).Perm
      (x.machine.registers .quantum) := by
    rw [Machine.registers, hx.quantum]
    exact perm_registers hperm
  refine Executor.run_declarations Machine.untouched_initial (fun s hs => ?_) (List.nil_append _)
    ?_ (fun r hr => ?_) ?_
  · exact (List.mem_filter.mp (hperm.mem_iff.mp hs)).2
  · rw [(hregisters.map Prod.fst).nodup_iff, Machine.names_registers]
    exact (List.nodup_append'.mp hx.laid.distinct).1
  · obtain ⟨q, hq, -, hwidth⟩ := Machine.exists_register hregisters hr
    rw [← hwidth]
    exact hx.laid.quantum_width q hq
  · rw [(hregisters.map Prod.snd).sum_eq, Machine.sum_registers, ← hlimit]
    exact hx.laid.qubits_le

omit [RealScalar R] in
/-- What the statements of a program that runs declare is there already, or free. -/
theorem foresees_of_tracks {x : Executor R} (hx : x.Tracks p.statements) {machine : Machine R}
    (hlaid : machine.Laid)
    (hregisters : (machine.registers .quantum).Perm (x.machine.registers .quantum)) :
    ∀ s ∈ p.statements, machine.Foresees s := by
  refine fun s hs => ⟨fun name width hquantum => ?_, fun name width hclassical hmem => ?_⟩
  · have hdeclared : (name, width) ∈ x.machine.registers .quantum := by
      rw [Machine.registers, hx.quantum]
      exact List.mem_filterMap.mpr ⟨s, hs, hquantum⟩
    obtain ⟨r, hr, rfl, hwidth⟩ := Machine.exists_register hregisters.symm hdeclared
    exact ⟨r, hlaid.quantumRegister_of_mem hr, hwidth⟩
  · have hdeclared : (name, width) ∈ x.machine.registers .classical := by
      rw [Machine.registers, hx.classical]
      exact List.mem_filterMap.mpr ⟨s, hs, hclassical⟩
    obtain ⟨c, hc, heq⟩ := List.mem_map.mp hdeclared
    have hcname : c.name = name := congrArg Prod.fst heq
    rw [← Machine.names_registers, (hregisters.map Prod.fst).mem_iff,
      Machine.names_registers] at hmem
    refine (List.nodup_append'.mp hx.laid.distinct).2.2 hmem ?_
    rw [← hcname]
    exact List.mem_map_of_mem hc

/-- Nothing has been declared yet, and the registers that will be are there already. -/
theorem relocated_untouched {machine : Machine R} (h : machine.Untouched maxQubits draws) :
    (Executor.initial maxQubits draws).Relocated ⟨machine, []⟩ where
  machine :=
    { laid := Machine.laid_initial maxQubits draws
      laid' := h.laid
      registers := fun _ hr => absurd hr List.not_mem_nil
      classical := h.classical
      draws := h.draws
      drawn := h.drawn
      embeds := Embeds.initial h.laid.size h.get }
  gates := rfl

/-- **Results do not depend on the layout.** A program that is accepted and runs is accepted and
runs as well when its quantum registers are declared first, in any order, with the same draws. The
classical registers are left with the same bits, as many draws are taken, and the amplitude at an
index is the one that the program has at the index with the block of each register moved from where
it stands now to where it stood. -/
theorem execute_declaringFirst {t : SymbolTable} (hcheck : p.check = .ok t)
    (hexecute : p.execute maxQubits draws = .ok after)
    (hperm : declarations.Perm p.quantumDeclarations) :
    (∃ t, (p.declaringFirst declarations).check = .ok t) ∧
    ∃ moved, (p.declaringFirst declarations).execute maxQubits draws = .ok moved ∧
      moved.classical = after.classical ∧ moved.drawn = after.drawn ∧
      moved.registers .quantum = declarations.filterMap (·.action.quantum?) ∧
      Tiled 0 moved.quantum ∧ moved.vector.size = after.vector.size ∧
      ∀ i < moved.vector.size, relocate moved.quantum after.quantum i < after.vector.size ∧
        moved.vector.get i = after.vector.get (relocate moved.quantum after.quantum i) := by
  have hp := wellFormed_of_check hcheck
  refine ⟨(hp.of_perm (perm_declaringFirst hperm)).exists_check, ?_⟩
  obtain ⟨x, hrun, rfl⟩ := execute_eq_ok.mp hexecute
  have htracks : x.Tracks p.statements := by
    have hd : (declaredNames ([] ++ p.statements)).Nodup := hp.distinct
    exact Executor.tracks_of_run (Executor.tracks_initial maxQubits draws) hd hrun
  have hlimit : x.machine.limit = min maxQubits StateVector.maxQubits := by
    have hinitial : Executor.Reached maxQubits draws (.initial maxQubits draws) := .initial
    have hreached := hinitial.run p.statements
    rw [hrun] at hreached
    exact hreached.limit
  obtain ⟨first, hfirst, huntouched, hregisters⟩ :=
    run_quantumDeclarations draws htracks hlimit hperm
  have hsame : (first.registers .quantum).Perm (x.machine.registers .quantum) := by
    rw [hregisters, Machine.registers, htracks.quantum]
    exact perm_registers hperm
  obtain ⟨x', hrun', hrelocated, hquantum⟩ := (relocated_untouched huntouched).run
    (foresees_of_tracks htracks huntouched.laid hsame) hrun
  have hkept : x'.machine.registers .quantum = first.registers .quantum :=
    congrArg (List.map _) hquantum
  obtain ⟨hsize, hget⟩ := hrelocated.machine.get_eq (hkept ▸ hsame)
  refine ⟨x'.machine, execute_eq_ok.mpr ⟨x', ?_, rfl⟩, hrelocated.machine.classical,
    hrelocated.machine.drawn, hkept.trans hregisters, hrelocated.machine.laid'.tiled, hsize, hget⟩
  exact (Outcome.forAll_append hfirst _).trans hrun'

end Program

/-! ## Two registers that change places -/

namespace Executor

/-- Where the statements below stand. -/
def placesPos : SourcePos := ⟨"places.qasm", 1, 1⟩

def declareA : Statement := ⟨.register .quantum "a" 1, placesPos⟩

def declareB : Statement := ⟨.register .quantum "b" 1, placesPos⟩

/-- `U(pi, 0, pi) a[0];` -/
def callA : GateCall :=
  ⟨.rotation, some [.pi placesPos, .integer 0 placesPos, .pi placesPos],
    [⟨"a", some 0, placesPos⟩]⟩

def turnA : Statement := ⟨.operation (.call callA), placesPos⟩

/-- `measure a -> c;` -/
def measureA : Statement :=
  ⟨.operation (.measure ⟨"a", none, placesPos⟩ ⟨"c", none, placesPos⟩), placesPos⟩

/-- A qubit that is turned and measured before the other one is declared:
```
qreg a[1];
creg c[1];
U(pi, 0, pi) a[0];
measure a -> c;
qreg b[1];
``` -/
def places : Program where
  file := "places.qasm"
  version := ⟨20, -1⟩
  includes := []
  statements := [declareA, ⟨.register .classical "c" 1, placesPos⟩, turnA, measureA, declareB]

/-- The entries of the turned qubit. -/
noncomputable def turnedQubit : Array (Amplitude ℝ) :=
  applyOnTargets #[1 * 1, 0 * 1] turn.entries [0]

/-- An executor with the qubit and the bit. -/
noncomputable def oneQubitExecutor (entries : Array (Amplitude ℝ)) (b : Bool) (drawn : Nat) :
    Executor ℝ :=
  ⟨⟨⟨entries⟩, [⟨"a", 0, 1⟩], [⟨"c", [b]⟩], fun _ => 0, drawn, 24⟩, []⟩

theorem execute_turnA : (oneQubitExecutor #[1 * 1, 0 * 1] false 0).execute turnA =
    ⟨oneQubitExecutor turnedQubit false 0, none⟩ := by
  have hnamed : (oneQubitExecutor #[1 * 1, 0 * 1] false 0).machine.applyNamed [] .rotation
      [Real.pi, Scalar.ofNat 0, Real.pi] [0] = .ok (oneQubitExecutor turnedQubit false 0).machine :=
    Machine.applyNamed_eq_ok.mpr
      ⟨_, GateTable.instantiateWithin_rotation_eq_ok.mpr ⟨_, _, _, rfl, rfl⟩,
        Machine.apply_eq_ok.mpr ⟨by decide, by decide, turn, rfl, rfl, rfl⟩⟩
  have hcall : (oneQubitExecutor #[1 * 1, 0 * 1] false 0).machine.call [] callA =
      ⟨(oneQubitExecutor turnedQubit false 0).machine, none⟩ := by
    refine Machine.call_eq_ok.mpr
      ⟨[⟨.rotation, [Real.pi, Scalar.ofNat 0, Real.pi], [0]⟩], rfl, ?_⟩
    rw [Machine.applyEach_cons]
    exact bind_eq_ok.mpr ⟨_, hnamed, rfl⟩
  exact execute_eq.mpr (withMachine_eq_ok.mpr ⟨_, hcall, rfl⟩)

theorem entry_turnedQubit : entry turnedQubit 0 = 0 ∧ entry turnedQubit 1 = ⟨0, -1⟩ := by
  have hfirst : entry turn.entries 0 = 0 := by
    show (Amplitude.times _ _).conj = _
    ext <;> simp [Amplitude.times, Amplitude.unit, Amplitude.conj, Scalar.half, Scalar.ofNat,
      Scalar.sin, Scalar.cos, Amplitude.zero_re, Amplitude.zero_im]
  constructor
  · calc entry turnedQubit 0
        = ∑ j ∈ Finset.range 2, entry turn.entries (0 + j) *
            entry #[1 * 1, (0 : Amplitude ℝ) * 1] (patch [0] 0 j) :=
          entry_applyOnTargets _ _ _ (by decide)
      _ = entry turn.entries 0 * (1 * 1) + entry turn.entries 1 * (0 * 1) := by
        rw [Finset.sum_range_succ, Finset.sum_range_one]
        rfl
      _ = 0 := by rw [hfirst, zero_mul, zero_mul, mul_zero, add_zero]
  · calc entry turnedQubit 1
        = ∑ j ∈ Finset.range 2, entry turn.entries (2 + j) *
            entry #[1 * 1, (0 : Amplitude ℝ) * 1] (patch [0] 1 j) :=
          entry_applyOnTargets _ _ _ (by decide)
      _ = entry turn.entries 2 * (1 * 1) + entry turn.entries 3 * (0 * 1) := by
        rw [Finset.sum_range_succ, Finset.sum_range_one]
        rfl
      _ = ⟨0, -1⟩ := by rw [entry_turn, mul_one, mul_one, zero_mul, mul_zero, add_zero]

theorem execute_measureA : (oneQubitExecutor turnedQubit false 0).execute measureA =
    ⟨oneQubitExecutor turnedQubit true 1, none⟩ := by
  obtain ⟨hzero, hone⟩ := entry_turnedQubit
  have hcarries : (⟨turnedQubit⟩ : StateVector (Amplitude ℝ)).Carries 0 1 1 := by
    intro i hi
    have hlt : i < 2 := lt_of_get_ne_zero hi
    interval_cases i
    · exact absurd hzero hi
    · rfl
  have hmass : (⟨turnedQubit⟩ : StateVector (Amplitude ℝ)).mass = 1 := by
    rw [StateVector.mass_eq_sum, show StateVector.size ⟨turnedQubit⟩ = 2 from rfl,
      Finset.sum_range_succ, Finset.sum_range_one, StateVector.get, StateVector.get, hzero, hone,
      Amplitude.mass_zero]
    simp [Amplitude.mass]
  have hmeasure := hcarries.measure_eq hmass (by decide) rfl 0
  refine execute_eq.mpr (withMachine_eq_ok.mpr ⟨_, Outcome.ofExcept_eq_ok.mpr
    (mapError_eq_ok.mpr ?_), rfl⟩)
  exact Machine.measure_eq_ok.mpr ⟨_, _, _, _, rfl, rfl, rfl, hmeasure, rfl⟩

/-- The qubit is found set, and keeps its amplitude when the other one is declared. -/
theorem execute_places : ∃ after, places.execute 24 (fun _ => (0 : ℝ)) = .ok after ∧
    after.quantum = [⟨"a", 0, 1⟩, ⟨"b", 1, 1⟩] ∧ after.classical = [⟨"c", [true]⟩] ∧
    after.drawn = 1 ∧ after.vector.size = 4 ∧ after.vector.get 1 = ⟨0, -1⟩ := by
  obtain ⟨fresh, hzero⟩ : ∃ fresh : StateVector (Amplitude ℝ), zeroState 1 = .ok fresh := ⟨_, rfl⟩
  have hdeclare := Machine.declareQuantum_eq_ok.mpr
    ⟨(rfl : (oneQubitExecutor turnedQubit true 1).machine.checkFresh "b" 1 = .ok ()), by decide,
      fresh, hzero, rfl⟩
  have hlast : (oneQubitExecutor turnedQubit true 1).execute declareB = ⟨_, none⟩ :=
    execute_eq.mpr (withMachine_eq_ok.mpr
      ⟨_, Outcome.ofExcept_eq_ok.mpr (mapError_eq_ok.mpr hdeclare), rfl⟩)
  have hrun := (run_cons execute_turnA [measureA, declareB]).trans
    ((run_cons execute_measureA [declareB]).trans (run_cons hlast []))
  refine ⟨_, Program.execute_eq_ok.mpr ⟨_, hrun, rfl⟩, rfl, rfl, rfl, ?_⟩
  have hsize : (fresh.tensor (oneQubitExecutor turnedQubit true 1).machine.vector).size = 4 := by
    obtain rfl := Except.ok.inj hzero
    exact size_tabulate _ _
  exact ⟨hsize, (get_tensor_zeroState hzero (by omega)).trans entry_turnedQubit.2⟩

/-- The registers `a` and `b` have changed places: the amplitude of `a = 1` has moved from index 1
to index 2, and the bit is set all the same. -/
theorem execute_declaringFirst_places : ∃ t after moved, places.check = .ok t ∧
    places.execute 24 (fun _ => (0 : ℝ)) = .ok after ∧ after.vector.get 1 = ⟨0, -1⟩ ∧
    (places.declaringFirst [declareB, declareA]).execute 24 (fun _ => (0 : ℝ)) = .ok moved ∧
    moved.quantum = [⟨"b", 0, 1⟩, ⟨"a", 1, 1⟩] ∧ moved.classical = [⟨"c", [true]⟩] ∧
    moved.drawn = 1 ∧ moved.vector.get 2 = ⟨0, -1⟩ := by
  have haccepted : places.check.isOk = true := by decide +kernel
  obtain ⟨t, hcheck⟩ := exists_eq_ok haccepted
  obtain ⟨after, hafter, hquantum, hclassical, hdrawn, hsize, hone⟩ := execute_places
  obtain ⟨-, moved, hmoved, hclassical', hdrawn', hregisters, htiled, hsame, hget⟩ :=
    Program.execute_declaringFirst hcheck hafter (List.Perm.swap declareA declareB [])
  have hplaces : moved.quantum = [⟨"b", 0, 1⟩, ⟨"a", 1, 1⟩] := by
    obtain ⟨b, rest, hcons, hb, hrest⟩ := List.map_eq_cons_iff.mp hregisters
    obtain ⟨a, nothing, rfl, ha, hnothing⟩ := List.map_eq_cons_iff.mp hrest
    obtain rfl := List.map_eq_nil_iff.mp hnothing
    rw [hcons] at htiled ⊢
    obtain ⟨boffset, aoffset, -⟩ := htiled
    cases b
    cases a
    cases hb
    cases ha
    cases boffset
    cases aoffset
    rfl
  refine ⟨t, after, moved, hcheck, hafter, hone, hmoved, hplaces, hclassical'.trans hclassical,
    hdrawn'.trans hdrawn, ?_⟩
  obtain ⟨-, htwo⟩ := hget 2 (by omega)
  rw [htwo, hplaces, hquantum]
  exact hone

end Executor

end OpenQasm
