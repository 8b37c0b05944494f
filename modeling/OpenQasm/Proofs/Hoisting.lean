import OpenQasm.Proofs.Acceptance
import OpenQasm.Proofs.Measuring
import OpenQasm.Proofs.Resolution
import OpenQasm.Random.ChaCha

/-!
# Declaring gates and classical registers first

The gates and the classical registers of a program may be declared in front of everything else: the
program leaves the very same machine. No law of arithmetic is needed, since both programs do the
same arithmetic in the same order.

Both programs are run side by side. The second one is ahead (`Executor.Ahead`): it has the gates and
the classical registers that the remaining statements of the first one declare.

* `GateTable.instantiateWithin_mono`: a gate that is instantiated is the same gate in a table that
  knows more.
* `Machine.operate_reserve`: operations leave alone the classical registers behind those that a
  machine has.
* `Ahead.declares`, `Ahead.execute`, `Ahead.run`: one statement, then a run, by induction on it.
* **`Program.execute_hoisted`**: the whole program.
-/

namespace OpenQasm

/-! ## Gates in a table that knows more -/

namespace GateTable

variable {R : Type} [Scalar R] {table other : GateTable}

/-- The circuit of a body depends only on the gates that its calls amount to. -/
theorem instantiateBody_mono
    {instantiateCall instantiateCall' : GateName → List R → Except RunError (Gate (Amplitude R))}
    (hcalls : ∀ gate parameters instantiated, instantiateCall gate parameters = .ok instantiated →
      instantiateCall' gate parameters = .ok instantiated)
    {arguments : List String} {bindings : Bindings R} :
    ∀ {body : List BodyStatement} {circuit : Circuit (Amplitude R)},
      instantiateBody instantiateCall arguments bindings body = .ok circuit →
      instantiateBody instantiateCall' arguments bindings body = .ok circuit
  | [], _, h => by
    rw [instantiateBody] at h ⊢
    exact h
  | ⟨.barrier _, _⟩ :: _, _, h => by
    rw [instantiateBody] at h ⊢
    exact instantiateBody_mono hcalls h
  | ⟨.call c, _⟩ :: rest, circuit, h => by
    obtain ⟨parameters, targets, gate, after, hp, ht, hg, hrest, rfl⟩ :=
      instantiateBody_call_eq_ok.mp h
    exact instantiateBody_call_eq_ok.mpr ⟨parameters, targets, gate, after, hp, ht,
      hcalls _ _ _ hg, instantiateBody_mono hcalls hrest, rfl⟩

/-- **A gate that is instantiated** is the same gate in a table that knows more. -/
theorem instantiateWithin_mono
    (hsub : ∀ name d, table.lookup name = some d → other.lookup name = some d)
    {active : List String} {gate : GateName} {parameters : List R}
    {instantiated : Gate (Amplitude R)}
    (h : table.instantiateWithin active gate parameters = .ok instantiated) :
    other.instantiateWithin active gate parameters = .ok instantiated := by
  cases gate with
  | rotation =>
    exact instantiateWithin_rotation_eq_ok.mpr (instantiateWithin_rotation_eq_ok.mp h)
  | controlledNot =>
    rw [instantiateWithin_controlledNot] at h ⊢
    exact h
  | named name =>
    obtain ⟨signature, body, circuit, hfound, hnew, hlength, hbody, rfl⟩ :=
      instantiateWithin_named_eq_ok.mp h
    have hpending := pending_cons_lt (mem_names hfound) hnew
    exact instantiateWithin_named_eq_ok.mpr ⟨signature, body, circuit, hsub _ _ hfound, hnew,
      hlength, instantiateBody_mono (fun _ _ _ => instantiateWithin_mono hsub) hbody, rfl⟩
termination_by pending table.names active

end GateTable

/-! ## Machines with more classical registers -/

namespace Machine

variable {R : Type} {m after : Machine R} {later : List ClassicalRegister}

/-- More classical registers, behind those that a machine has. -/
def reserve (m : Machine R) (later : List ClassicalRegister) : Machine R :=
  { m with classical := m.classical ++ later }

/-- Registers that a machine does not have. -/
def Lacks (m : Machine R) (later : List ClassicalRegister) : Prop :=
  ∀ r ∈ later, r.name ∉ m.registerNames

theorem reserve_reserve (m : Machine R) (first second : List ClassicalRegister) :
    (m.reserve first).reserve second = m.reserve (first ++ second) := by
  rw [reserve, reserve, reserve, List.append_assoc]

theorem registerNames_reserve (m : Machine R) (later : List ClassicalRegister) :
    (m.reserve later).registerNames = m.registerNames ++ later.map (·.name) := by
  rw [registerNames, registerNames, reserve, List.map_append, List.append_assoc]

theorem classicalRegister_reserve {name : String} {c : ClassicalRegister}
    (hc : m.classicalRegister name = .ok c) (later : List ClassicalRegister) :
    (m.reserve later).classicalRegister name = .ok c := by
  rw [classicalRegister_eq_ok] at hc ⊢
  rw [reserve, List.find?_append, hc, Option.some_or]

/-- Changing a register that the machine has. -/
theorem updateClassical_reserve (hlacks : m.Lacks later) {name : String} {c : ClassicalRegister}
    (hc : m.classicalRegister name = .ok c) (change : ClassicalRegister → ClassicalRegister) :
    (m.reserve later).updateClassical name change =
      (m.updateClassical name change).reserve later := by
  have hfound := classicalRegister_eq_ok.mp hc
  have hname : c.name = name := by simpa using List.find?_some hfound
  have hother : ∀ r ∈ later, (if r.name == name then change r else r) = r := by
    intro r hr
    rw [if_neg]
    intro hsame
    refine hlacks r hr (List.mem_append_right _ ?_)
    rw [show r.name = c.name from (by simpa using hsame : r.name = name).trans hname.symm]
    exact List.mem_map_of_mem (List.mem_of_find?_eq_some hfound)
  unfold updateClassical reserve
  rw [List.map_append, List.map_congr_left hother, List.map_id']

theorem resetClassical_reserve (hlacks : m.Lacks later) {name : String}
    (h : m.resetClassical name = .ok after) :
    (m.reserve later).resetClassical name = .ok (after.reserve later) := by
  obtain ⟨c, hc, rfl⟩ := resetClassical_eq_ok.mp h
  exact resetClassical_eq_ok.mpr ⟨c, classicalRegister_reserve hc later,
    (updateClassical_reserve hlacks hc _).symm⟩

theorem resetClassicalBit_reserve (hlacks : m.Lacks later) {name : String} {index : Nat}
    (h : m.resetClassicalBit name index = .ok after) :
    (m.reserve later).resetClassicalBit name index = .ok (after.reserve later) := by
  obtain ⟨c, hc, hindex, rfl⟩ := resetClassicalBit_eq_ok.mp h
  exact resetClassicalBit_eq_ok.mpr ⟨c, classicalRegister_reserve hc later, hindex,
    (updateClassical_reserve hlacks hc _).symm⟩

/-- A new classical register is the first of those behind. -/
theorem declareClassical_eq_reserve {name : String} {width : Nat}
    (h : m.declareClassical name width = .ok after) :
    after = m.reserve [⟨name, List.replicate width false⟩] :=
  (declareClassical_eq_ok.mp h).2

theorem declareClassical_of_fresh {name : String} {width : Nat} (hwidth : width ≠ 0)
    (hroom : width ≤ ClassicalRegister.maxWidth) (hname : name ∉ m.registerNames) :
    m.declareClassical name width = .ok (m.reserve [⟨name, List.replicate width false⟩]) :=
  declareClassical_eq_ok.mpr ⟨⟨checkFresh_eq_ok.mpr ⟨hwidth, hname⟩, hroom⟩, rfl⟩

variable [Scalar R] {table other : GateTable}

theorem declareQuantum_reserve {name : String} {width : Nat}
    (hname : name ∉ later.map (·.name)) (h : m.declareQuantum name width = .ok after) :
    (m.reserve later).declareQuantum name width = .ok (after.reserve later) := by
  obtain ⟨hfresh, hlimit, fresh, hzero, rfl⟩ := declareQuantum_eq_ok.mp h
  obtain ⟨hwidth, hnew⟩ := checkFresh_eq_ok.mp hfresh
  have hfresh' : (m.reserve later).checkFresh name width = .ok () := by
    rw [checkFresh_eq_ok, registerNames_reserve, List.mem_append, not_or]
    exact ⟨hwidth, hnew, hname⟩
  exact declareQuantum_eq_ok.mpr ⟨hfresh', hlimit, fresh, hzero, rfl⟩

/-! ### Operations -/

theorem measure_reserve (hlacks : m.Lacks later) {source target : String}
    (h : m.measure source target = .ok after) :
    (m.reserve later).measure source target = .ok (after.reserve later) := by
  obtain ⟨q, c, outcome, vector, hq, hc, hwidth, hv, rfl⟩ := measure_eq_ok.mp h
  have hupdate := updateClassical_reserve (m := { m with vector, drawn := m.drawn + 1 })
    hlacks hc fun r => { r with bits := BitIndex.bits q.width outcome }
  exact measure_eq_ok.mpr ⟨q, c, outcome, vector, hq, classicalRegister_reserve hc later, hwidth,
    hv, hupdate.symm⟩

theorem measureBit_reserve (hlacks : m.Lacks later) {source target : String} {i j : Nat}
    (h : m.measureBit source i target j = .ok after) :
    (m.reserve later).measureBit source i target j = .ok (after.reserve later) := by
  obtain ⟨bit, c, outcome, vector, hbit, hc, hj, hv, rfl⟩ := measureBit_eq_ok.mp h
  have hupdate := updateClassical_reserve (m := { m with vector, drawn := m.drawn + 1 })
    hlacks hc (·.setBit j (outcome.testBit 0))
  exact measureBit_eq_ok.mpr ⟨bit, c, outcome, vector, hbit, classicalRegister_reserve hc later, hj,
    hv, hupdate.symm⟩

theorem measureOperand_reserve (hlacks : m.Lacks later) {source target : Operand}
    (h : m.measureOperand source target = .ok after) :
    (m.reserve later).measureOperand source target = .ok (after.reserve later) := by
  unfold measureOperand at h ⊢
  split at h
  · exact measure_reserve hlacks h
  · exact measureBit_reserve hlacks h
  · cases h

theorem resetOperand_reserve (hlacks : m.Lacks later) {target : Operand}
    (h : m.resetOperand target = .ok after) :
    (m.reserve later).resetOperand target = .ok (after.reserve later) := by
  have hquantum : (m.reserve later).isQuantum target.name = m.isQuantum target.name := rfl
  unfold resetOperand at h ⊢
  rw [hquantum]
  split at h
  · obtain ⟨r, vector, hr, hv, rfl⟩ := resetQuantum_eq_ok.mp h
    exact resetQuantum_eq_ok.mpr ⟨r, vector, hr, hv, rfl⟩
  · obtain ⟨bit, vector, hbit, hv, rfl⟩ := resetQubit_eq_ok.mp h
    exact resetQubit_eq_ok.mpr ⟨bit, vector, hbit, hv, rfl⟩
  · exact resetClassical_reserve hlacks h
  · exact resetClassicalBit_reserve hlacks h

/-- One application, with a table that knows more. -/
theorem applyNamed_reserve
    (hsub : ∀ name d, table.lookup name = some d → other.lookup name = some d) {gate : GateName}
    {parameters : List R} {targets : List Nat}
    (h : m.applyNamed table gate parameters targets = .ok after) :
    (m.reserve later).applyNamed other gate parameters targets = .ok (after.reserve later) := by
  obtain ⟨instantiated, hinstantiate, happly⟩ := applyNamed_eq_ok.mp h
  obtain ⟨hlt, hdistinct, operator, hresolve, hdim, rfl⟩ := apply_eq_ok.mp happly
  exact applyNamed_eq_ok.mpr ⟨instantiated, GateTable.instantiateWithin_mono hsub hinstantiate,
    apply_eq_ok.mpr ⟨hlt, hdistinct, operator, hresolve, hdim, rfl⟩⟩

theorem applyEach_reserve
    (hsub : ∀ name d, table.lookup name = some d → other.lookup name = some d)
    {calls : List (Applied R)} (h : m.applyEach table calls = .ok after) :
    (m.reserve later).applyEach other calls = .ok (after.reserve later) := by
  induction calls generalizing m with
  | nil =>
    obtain rfl := Except.ok.inj h
    rfl
  | cons a rest ih =>
    rw [applyEach_cons] at h ⊢
    obtain ⟨next, hnext, hrest⟩ := bind_eq_ok.mp h
    exact bind_eq_ok.mpr ⟨_, applyNamed_reserve hsub hnext, ih hrest⟩

/-- **A quantum operation** with a table that knows more, on a machine with more classical
registers behind. -/
theorem operate_reserve
    (hsub : ∀ name d, table.lookup name = some d → other.lookup name = some d)
    (hlacks : m.Lacks later) {o : Operation} (h : m.operate table o = ⟨after, none⟩) :
    (m.reserve later).operate other o = ⟨after.reserve later, none⟩ := by
  cases o with
  | call c =>
    obtain ⟨calls, hcalls, heach⟩ := call_eq_ok.mp h
    exact call_eq_ok.mpr ⟨calls, hcalls, applyEach_reserve hsub heach⟩
  | measure source target =>
    have hmeasure := mapError_eq_ok.mp (Outcome.ofExcept_eq_ok.mp h)
    exact Outcome.ofExcept_eq_ok.mpr (mapError_eq_ok.mpr (measureOperand_reserve hlacks hmeasure))
  | reset target =>
    have hreset := mapError_eq_ok.mp (Outcome.ofExcept_eq_ok.mp h)
    exact Outcome.ofExcept_eq_ok.mpr (mapError_eq_ok.mpr (resetOperand_reserve hlacks hreset))

/-- A condition on a register that the machine has. -/
theorem condition_reserve {register : Operand} {value : Expr} {holds : Bool}
    (h : m.condition register value = .ok holds) :
    (m.reserve later).condition register value = .ok holds := by
  unfold condition at h ⊢
  obtain ⟨r, hr, h⟩ := bind_eq_ok.mp h
  refine bind_eq_ok.mpr ⟨r, mapError_eq_ok.mpr ?_, h⟩
  exact classicalRegister_reserve (mapError_eq_ok.mp hr) later

end Machine

/-! ## Both programs side by side -/

/-- Whether a statement declares a gate or a classical register. -/
def Action.isHoisted : Action → Bool
  | .gate .. | .opaqueGate _ | .register .classical .. => true
  | .register .quantum .. | .operation _ | .barrier _ | .conditional .. => false

/-- The classical registers that some statements declare, all bits clear. -/
def classicalRegisters (statements : List Statement) : List ClassicalRegister :=
  (statements.filterMap (·.action.classical?)).map fun r => ⟨r.1, List.replicate r.2 false⟩

/-- What is hoisted declares a classical register or a gate, and what is not declares neither. -/
theorem Action.not_hoisted {a : Action} (h : a.isHoisted = false) :
    a.classical? = none ∧ a.definition? = none := by
  cases a with
  | register kind name width =>
    cases kind with
    | quantum => exact ⟨rfl, rfl⟩
    | classical => cases h
  | gate | opaqueGate => cases h
  | operation | barrier | conditional => exact ⟨rfl, rfl⟩

theorem classicalRegisters_cons (s : Statement) (rest : List Statement) :
    classicalRegisters (s :: rest) = classicalRegisters [s] ++ classicalRegisters rest := by
  rw [classicalRegisters, classicalRegisters, classicalRegisters, ← List.map_append,
    ← List.filterMap_append, List.singleton_append]

theorem classicalRegisters_of_none {s : Statement} (h : s.action.classical? = none) :
    classicalRegisters [s] = [] := by
  simp [classicalRegisters, h]

theorem classicalRegisters_of_some {s : Statement} {name : String} {width : Nat}
    (h : s.action.classical? = some (name, width)) :
    classicalRegisters [s] = [⟨name, List.replicate width false⟩] := by
  simp [classicalRegisters, h]

/-- The names of the classical registers are among those that are declared. -/
theorem mem_declaredNames_of_classical {statements : List Statement} {r : ClassicalRegister}
    (hr : r ∈ classicalRegisters statements) : r.name ∈ declaredNames statements := by
  obtain ⟨⟨name, width⟩, hmem, rfl⟩ := List.mem_map.mp hr
  obtain ⟨s, hs, hclassical⟩ := List.mem_filterMap.mp hmem
  exact List.mem_map.mpr ⟨_, mem_globals hs (Action.classical?_eq_some_iff.mp hclassical), rfl⟩

namespace Executor

variable {R : Type} {x x' after : Executor R} {s : Statement} {rest before : List Statement}

/-- `x'` has already declared the gates and the classical registers of the statements that `x` has
still to execute. -/
structure Ahead (rest : List Statement) (x x' : Executor R) : Prop where
  machine : x'.machine = x.machine.reserve (classicalRegisters rest)
  gates : ∀ name d, x.gates.lookup name = some d → x'.gates.lookup name = some d
  definitions : ∀ s ∈ rest, ∀ name d, s.action.definition? = some (name, d) →
    x'.gates.lookup name = some d

/-- What has still to be declared has names of its own. -/
theorem Tracks.fresh (h : x.Tracks before) (hd : (declaredNames (before ++ rest)).Nodup)
    {name : String} (hname : name ∈ declaredNames rest) : name ∉ x.machine.registerNames := by
  rw [declaredNames_append] at hd
  exact fun hold => (List.nodup_append'.mp hd).2.2 (h.mem_declaredNames hold) hname

theorem Tracks.lacks (h : x.Tracks before) (hd : (declaredNames (before ++ rest)).Nodup) :
    x.machine.Lacks (classicalRegisters rest) :=
  fun _ hr => h.fresh hd (mem_declaredNames_of_classical hr)

/-- The machine changes, and nothing is declared. -/
theorem Ahead.withMachine (h : Ahead (s :: rest) x x') (hs : s.action.isHoisted = false)
    (machine : Machine R) :
    Ahead rest { x with machine }
      { x' with machine := machine.reserve (classicalRegisters (s :: rest)) } where
  machine := by
    rw [classicalRegisters_cons, classicalRegisters_of_none (Action.not_hoisted hs).1,
      List.nil_append]
  gates := h.gates
  definitions t ht := h.definitions t (List.mem_cons_of_mem s ht)

variable [Scalar R]

/-- **A declaration that is hoisted** has been executed by the other executor. -/
theorem Ahead.declares (h : Ahead (s :: rest) x x') (hs : s.action.isHoisted = true)
    (he : x.execute s = ⟨after, none⟩) : Ahead rest after x' := by
  have hdefinitions : ∀ t ∈ rest, ∀ name d, t.action.definition? = some (name, d) →
      x'.gates.lookup name = some d := fun t ht => h.definitions t (List.mem_cons_of_mem s ht)
  have hinsert : ∀ {name : String} {d : GateDefinition}, s.action.definition? = some (name, d) →
      s.action.classical? = none → after = { x with gates := x.gates.insert name d } →
      Ahead rest after x' := by
    rintro name d hd hc rfl
    refine ⟨?_, fun other found hfound => ?_, hdefinitions⟩
    · rw [h.machine, classicalRegisters_cons, classicalRegisters_of_none hc, List.nil_append]
    · rw [GateTable.lookup_insert] at hfound
      by_cases ho : other = name
      · rw [if_pos ho] at hfound
        cases hfound
        rw [ho]
        exact h.definitions s List.mem_cons_self name d hd
      · rw [if_neg ho] at hfound
        exact h.gates other found hfound
  rw [execute_eq] at he
  cases ha : s.action with
  | gate signature body =>
    rw [ha] at he
    exact hinsert (by rw [ha]; rfl) (by rw [ha]; rfl) (congrArg Outcome.state he).symm
  | opaqueGate signature =>
    rw [ha] at he
    exact hinsert (by rw [ha]; rfl) (by rw [ha]; rfl) (congrArg Outcome.state he).symm
  | register kind name width =>
    cases kind with
    | quantum =>
      rw [ha] at hs
      cases hs
    | classical =>
      rw [ha] at he
      obtain ⟨machine, hm, rfl⟩ := withMachine_eq_ok.mp he
      have hdeclare := mapError_eq_ok.mp (Outcome.ofExcept_eq_ok.mp hm)
      obtain rfl := Machine.declareClassical_eq_reserve hdeclare
      refine ⟨?_, h.gates, hdefinitions⟩
      rw [h.machine, Machine.reserve_reserve, classicalRegisters_cons,
        classicalRegisters_of_some (show s.action.classical? = some (name, width) by rw [ha]; rfl)]
  | operation | barrier | conditional =>
    rw [ha] at hs
    cases hs

/-- **A statement that is not hoisted** does the same to both executors. -/
theorem Ahead.execute (h : Ahead (s :: rest) x x') (hs : s.action.isHoisted = false)
    (htracks : x.Tracks before) (hd : (declaredNames (before ++ s :: rest)).Nodup)
    (he : x.execute s = ⟨after, none⟩) :
    ∃ after', x'.execute s = ⟨after', none⟩ ∧ Ahead rest after after' := by
  have hlacks := htracks.lacks hd
  -- the machine is changed in both executors
  have hboth : ∀ {o o' : Outcome (Machine R)}, x.withMachine o = ⟨after, none⟩ →
      (∀ {m}, o = ⟨m, none⟩ → o' = ⟨m.reserve (classicalRegisters (s :: rest)), none⟩) →
      ∃ after', x'.withMachine o' = ⟨after', none⟩ ∧ Ahead rest after after' := by
    intro o o' ho hsame
    obtain ⟨m, hm, rfl⟩ := withMachine_eq_ok.mp ho
    exact ⟨_, withMachine_eq_ok.mpr ⟨_, hsame hm, rfl⟩, h.withMachine hs m⟩
  have hstay : Ahead rest x x' := by
    have hsame := h.withMachine hs x.machine
    rwa [← h.machine] at hsame
  have hoperate : ∀ {o : Operation} {m : Machine R}, x.machine.operate x.gates o = ⟨m, none⟩ →
      x'.machine.operate x'.gates o = ⟨m.reserve (classicalRegisters (s :: rest)), none⟩ := by
    intro o m hm
    rw [h.machine]
    exact Machine.operate_reserve h.gates hlacks hm
  simp only [execute_eq] at he ⊢
  cases ha : s.action with
  | gate | opaqueGate =>
    rw [ha] at hs
    cases hs
  | register kind name width =>
    cases kind with
    | classical =>
      rw [ha] at hs
      cases hs
    | quantum =>
      rw [ha] at he
      refine hboth he fun hm => ?_
      have hdeclare := mapError_eq_ok.mp (Outcome.ofExcept_eq_ok.mp hm)
      rw [h.machine]
      refine Outcome.ofExcept_eq_ok.mpr (mapError_eq_ok.mpr ?_)
      refine Machine.declareQuantum_reserve (fun hname => ?_) hdeclare
      obtain ⟨r, hr, hrname⟩ := List.mem_map.mp hname
      rw [classicalRegisters_cons, classicalRegisters_of_none (Action.not_hoisted hs).1,
        List.nil_append] at hr
      have hlater := mem_declaredNames_of_classical hr
      rw [hrname] at hlater
      have hthis : name ∈ declaredNames [s] := by
        rw [declaredNames, globals_singleton, ha]
        exact List.mem_singleton_self name
      rw [← List.singleton_append, declaredNames_append, declaredNames_append] at hd
      exact (List.nodup_append'.mp (List.nodup_append'.mp hd).2.1).2.2 hthis hlater
  | operation o =>
    rw [ha] at he
    exact hboth he hoperate
  | barrier operands =>
    rw [ha] at he
    have hsome := mapError_eq_ok.mp (Outcome.ofExcept_eq_ok.mp he)
    cases hb : x.machine.checkBarrier operands with
    | error e =>
      rw [hb] at hsome
      cases hsome
    | ok u =>
      rw [hb] at hsome
      obtain rfl := Except.ok.inj hsome
      refine ⟨x', Outcome.ofExcept_eq_ok.mpr (mapError_eq_ok.mpr ?_), hstay⟩
      rw [h.machine, show (x.machine.reserve (classicalRegisters (s :: rest))).checkBarrier
        operands = .ok () from hb]
      rfl
  | conditional register value o pos =>
    rw [ha] at he
    unfold perform at he ⊢
    dsimp only at he ⊢
    cases hcondition : x.machine.condition register value with
    | error e =>
      rw [hcondition] at he
      cases he
    | ok holds =>
      have hcondition' : x'.machine.condition register value = .ok holds := by
        rw [h.machine]
        exact Machine.condition_reserve hcondition
      rw [hcondition] at he
      rw [hcondition']
      cases holds with
      | false =>
        obtain ⟨rfl, -⟩ := Outcome.mk.inj he
        exact ⟨x', rfl, hstay⟩
      | true => exact hboth he hoperate

/-- **A run**, whose hoisted declarations the other executor leaves out: it ends with the same
machine. -/
theorem Ahead.run (h : Ahead rest x x') (htracks : x.Tracks before)
    (hd : (declaredNames (before ++ rest)).Nodup) (hr : x.run rest = ⟨after, none⟩) :
    ∃ after', x'.run (rest.filter (!·.action.isHoisted)) = ⟨after', none⟩ ∧
      after'.machine = after.machine := by
  induction rest generalizing x x' before with
  | nil =>
    obtain ⟨rfl, -⟩ := Outcome.mk.inj hr
    refine ⟨x', rfl, ?_⟩
    rw [h.machine, Machine.reserve, show classicalRegisters [] = [] from rfl, List.append_nil]
  | cons s rest ih =>
    have hsplit : before ++ s :: rest = before ++ [s] ++ rest := by simp
    rw [Executor.run, Outcome.forAll] at hr
    split at hr
    · rename_i next hnext
      have hnew : ∀ name ∈ declaredNames [s], name ∉ declaredNames before := by
        intro name hs hb
        rw [hsplit, declaredNames_append, declaredNames_append] at hd
        exact (List.nodup_append'.mp (List.nodup_append'.mp hd).1).2.2 hb hs
      have hnextTracks := tracks_of_execute htracks hnew hnext
      have hnextDistinct := hd
      rw [hsplit] at hnextDistinct
      cases hs : s.action.isHoisted with
      | true =>
        rw [List.filter_cons_of_neg (by simp [hs])]
        exact ih (h.declares hs hnext) hnextTracks hnextDistinct hr
      | false =>
        obtain ⟨next', hnext', hahead⟩ := h.execute hs htracks hd hnext
        rw [List.filter_cons_of_pos (by simp [hs]), run_cons hnext']
        exact ih hahead hnextTracks hnextDistinct hr
    · rename_i hfailed
      exact absurd hr (hfailed _)

/-- The classical registers that a run declares have a place in an address space. -/
theorem width_le_of_run {statements : List Statement} (hr : x.run statements = ⟨after, none⟩) :
    ∀ s ∈ statements, ∀ name width, s.action = .register .classical name width →
      width ≤ ClassicalRegister.maxWidth := by
  induction statements generalizing x with
  | nil => exact fun s hs => absurd hs List.not_mem_nil
  | cons s rest ih =>
    rw [Executor.run, Outcome.forAll] at hr
    split at hr
    · rename_i next hnext
      refine List.forall_mem_cons.mpr ⟨fun name width ha => ?_, ih hr⟩
      rw [execute_eq, ha] at hnext
      obtain ⟨machine, hm, -⟩ := withMachine_eq_ok.mp hnext
      have hdeclare := mapError_eq_ok.mp (Outcome.ofExcept_eq_ok.mp hm)
      exact (Machine.declareClassical_eq_ok.mp hdeclare).1.2
    · rename_i hfailed
      exact absurd hr (hfailed _)

/-- **Declarations in a row** of gates and classical registers are all granted. -/
theorem run_hoisted {front : List Statement} (hhoisted : ∀ s ∈ front, s.action.isHoisted = true)
    (hsound : ∀ s ∈ front, s.action.Sound)
    (hroom : ∀ s ∈ front, ∀ name width, s.action = .register .classical name width →
      width ≤ ClassicalRegister.maxWidth)
    (hd : (x.machine.registerNames ++ declaredNames front).Nodup) :
    ∃ gates, x.run front = ⟨⟨x.machine.reserve (classicalRegisters front), gates⟩, none⟩ := by
  induction front generalizing x with
  | nil =>
    refine ⟨x.gates, ?_⟩
    rw [show classicalRegisters [] = [] from rfl, Machine.reserve, List.append_nil]
    rfl
  | cons s rest ih =>
    obtain ⟨hs, hrest⟩ := List.forall_mem_cons.mp hhoisted
    obtain ⟨hsoundHead, hsoundRest⟩ := List.forall_mem_cons.mp hsound
    obtain ⟨hroomHead, hroomRest⟩ := List.forall_mem_cons.mp hroom
    rw [← List.singleton_append, declaredNames_append, ← List.append_assoc] at hd
    have hgate : ∀ gates : GateTable, s.action.classical? = none →
        x.perform s.action = ⟨{ x with gates }, none⟩ → ∃ gates, x.run (s :: rest) =
          ⟨⟨x.machine.reserve (classicalRegisters (s :: rest)), gates⟩, none⟩ := by
      intro gates hc hperform
      have hlast : ({ x with gates } : Executor R).machine.registerNames ++ declaredNames rest
          |>.Nodup := by
        rw [List.append_assoc, List.nodup_append'] at hd
        refine List.nodup_append'.mpr ⟨hd.1, (List.nodup_append'.mp hd.2.1).2.1, ?_⟩
        exact fun name hold hlater => hd.2.2 hold (List.mem_append_right _ hlater)
      rw [run_cons (execute_eq.mpr hperform), classicalRegisters_cons,
        classicalRegisters_of_none hc, List.nil_append]
      exact ih hrest hsoundRest hroomRest hlast
    cases ha : s.action with
    | gate signature body =>
      refine hgate (x.gates.insert signature.name (.defined signature body)) (by rw [ha]; rfl) ?_
      rw [ha]
      rfl
    | opaqueGate signature =>
      refine hgate (x.gates.insert signature.name GateDefinition.sealed) (by rw [ha]; rfl) ?_
      rw [ha]
      rfl
    | register kind name width =>
      cases kind with
      | quantum =>
        rw [ha] at hs
        cases hs
      | classical =>
        rw [ha] at hsoundHead
        have hnames : declaredNames [s] = [name] := by
          rw [declaredNames, globals_singleton, ha]
          rfl
        have hregisters : classicalRegisters [s] = [⟨name, List.replicate width false⟩] :=
          classicalRegisters_of_some (by rw [ha]; rfl)
        have hname : name ∉ x.machine.registerNames := by
          rw [hnames] at hd
          have hboth := (List.nodup_append'.mp hd).1
          exact fun hold => (List.nodup_append'.mp hboth).2.2 hold (List.mem_singleton_self name)
        have hexecute : x.execute s =
            ⟨{ x with machine := x.machine.reserve (classicalRegisters [s]) }, none⟩ := by
          rw [execute_eq, ha, hregisters]
          exact withMachine_eq_ok.mpr ⟨_, Outcome.ofExcept_eq_ok.mpr (mapError_eq_ok.mpr
            (Machine.declareClassical_of_fresh hsoundHead (hroomHead name width ha) hname)), rfl⟩
        have hlast : ((x.machine.reserve (classicalRegisters [s])).registerNames ++
            declaredNames rest).Nodup := by
          rw [Machine.registerNames_reserve, hregisters]
          rwa [hnames] at hd
        obtain ⟨gates, hrun⟩ := @ih { x with machine := x.machine.reserve (classicalRegisters [s]) }
          hrest hsoundRest hroomRest hlast
        refine ⟨gates, ?_⟩
        rw [run_cons hexecute, hrun, Machine.reserve_reserve, ← classicalRegisters_cons]
    | operation | barrier | conditional =>
      rw [ha] at hs
      cases hs

end Executor

/-! ## Whole programs -/

namespace Program

/-- The program that declares its gates and its classical registers first, and does everything else
behind them, both in the order in which it has them. -/
def hoisted (p : Program) : Program :=
  { p with
    statements := p.statements.filter (·.action.isHoisted) ++
      p.statements.filter (!·.action.isHoisted) }

variable {p : Program}

theorem perm_hoisted (p : Program) : p.statements.Perm p.hoisted.statements :=
  (List.filter_append_perm _ _).symm

theorem filterMap_hoisted {α : Type} {f : Statement → Option α}
    (hf : ∀ s : Statement, s.action.isHoisted = false → f s = none) (statements : List Statement) :
    (statements.filter (·.action.isHoisted)).filterMap f = statements.filterMap f := by
  rw [List.filterMap_filter]
  refine List.filterMap_congr fun s _ => ?_
  cases hs : s.action.isHoisted with
  | true => rfl
  | false => exact (hf s hs).symm

/-- The names of the gates that are declared, among all names. -/
theorem sublist_declaredNames (statements : List Statement) :
    ((definitions statements).map Prod.fst).Sublist (declaredNames statements) := by
  induction statements with
  | nil => exact .slnil
  | cons s rest ih =>
    rw [← List.singleton_append, definitions_append, declaredNames_append, List.map_append]
    refine List.Sublist.append ?_ ih
    rw [declaredNames, globals_singleton]
    unfold definitions
    cases ha : s.action <;> simp [ha, Action.definition?, Action.declares]

variable {R : Type} [Scalar R] {maxQubits : Nat} {draws : Nat → R} {after : Machine R}

/-- The front of the hoisted program leads to an executor that is ahead of the whole program. -/
theorem WellFormed.ahead_initial (hp : p.WellFormed)
    (hroom : ∀ s ∈ p.statements, ∀ name width, s.action = .register .classical name width →
      width ≤ ClassicalRegister.maxWidth) (maxQubits : Nat) (draws : Nat → R) :
    ∃ x', (Executor.initial maxQubits draws).run (p.statements.filter (·.action.isHoisted)) =
        ⟨x', none⟩ ∧ Executor.Ahead p.statements (Executor.initial maxQubits draws) x' := by
  have hfront : (declaredNames (p.statements.filter (·.action.isHoisted))).Nodup := by
    have hdistinct := (hp.of_perm (perm_hoisted p)).distinct
    rw [hoisted, declaredNames_append] at hdistinct
    exact (List.nodup_append'.mp hdistinct).1
  have hclassical : classicalRegisters (p.statements.filter (·.action.isHoisted)) =
      classicalRegisters p.statements := by
    rw [classicalRegisters, filterMap_hoisted fun s hs => (Action.not_hoisted hs).1]
    rfl
  have hdefinitions : definitions (p.statements.filter (·.action.isHoisted)) =
      definitions p.statements := filterMap_hoisted (fun s hs => (Action.not_hoisted hs).2) _
  obtain ⟨gates, hrun⟩ := Executor.run_hoisted (x := Executor.initial maxQubits draws)
    (fun s hs => (List.mem_filter.mp hs).2)
    (fun s hs => hp.sound s (List.mem_filter.mp hs).1)
    (fun s hs => hroom s (List.mem_filter.mp hs).1) hfront
  have htracks := Executor.tracks_of_run (Executor.tracks_initial maxQubits draws) hfront hrun
  refine ⟨_, hrun, ⟨?_, fun name d hd => ?_, fun s hs name d hd => ?_⟩⟩
  · rw [hclassical]
  · cases hd
  · rw [htracks.gates, List.nil_append, hdefinitions]
    refine lookup_of_mem (hp.distinct.sublist (sublist_declaredNames _)) ?_
    exact List.mem_filterMap.mpr ⟨s, hs, hd⟩

/-- **Declaring gates and classical registers first changes nothing.** A program that is accepted
and runs is accepted and runs as well when all its declarations of gates and classical registers
stand in front, with the same draws. It leaves the same machine: amplitudes, registers with their
bits, and draws taken. -/
theorem execute_hoisted {t : SymbolTable} (hcheck : p.check = .ok t)
    (hexecute : p.execute maxQubits draws = .ok after) :
    (∃ t, p.hoisted.check = .ok t) ∧ p.hoisted.execute maxQubits draws = .ok after := by
  have hp := wellFormed_of_check hcheck
  refine ⟨(hp.of_perm (perm_hoisted p)).exists_check, ?_⟩
  obtain ⟨x, hrun, rfl⟩ := execute_eq_ok.mp hexecute
  obtain ⟨first, hfirst, hahead⟩ :=
    hp.ahead_initial (Executor.width_le_of_run hrun) maxQubits draws
  obtain ⟨last, hlast, hmachine⟩ :=
    hahead.run (Executor.tracks_initial maxQubits draws) hp.distinct hrun
  refine execute_eq_ok.mpr ⟨last, ?_, hmachine⟩
  exact (Outcome.forAll_append hfirst _).trans hlast

/-- Places in the program below. -/
def latePos (line column : Nat) : SourcePos := ⟨"late.qasm", line, column⟩

/-- A program that declares a gate and a classical register behind what does not need them:
```
qreg q[2];
CX q[0], q[1];
gate share a, b { CX a, b; }
share q[0], q[1];
creg c[2];
measure q -> c;
```
-/
def late : Program where
  file := "late.qasm"
  version := ⟨20, -1⟩
  includes := []
  statements :=
    [⟨.register .quantum "q" 2, latePos 2 1⟩,
      ⟨.operation (.call ⟨.controlledNot, none,
        [⟨"q", some 0, latePos 3 4⟩, ⟨"q", some 1, latePos 3 10⟩]⟩), latePos 3 1⟩,
      ⟨.gate ⟨"share", none, ["a", "b"]⟩
        [⟨.call ⟨.controlledNot, none, [⟨"a", none, latePos 4 22⟩, ⟨"b", none, latePos 4 25⟩]⟩,
          latePos 4 19⟩], latePos 4 1⟩,
      ⟨.operation (.call ⟨.named "share", none,
        [⟨"q", some 0, latePos 5 7⟩, ⟨"q", some 1, latePos 5 13⟩]⟩), latePos 5 1⟩,
      ⟨.register .classical "c" 2, latePos 6 1⟩,
      ⟨.operation (.measure ⟨"q", none, latePos 7 9⟩ ⟨"c", none, latePos 7 14⟩), latePos 7 1⟩]

/-- The gate and the classical register of the program above, moved to the front. -/
theorem execute_hoisted_late : ∃ t after, late.check = .ok t ∧
    late.execute 24 (Random.draw 0) = .ok after ∧
    late.hoisted.statements.map (·.pos.line) = [4, 6, 2, 3, 5, 7] ∧
    (∃ t, late.hoisted.check = .ok t) ∧ late.hoisted.execute 24 (Random.draw 0) = .ok after := by
  have haccepted : late.check.isOk = true := by decide +kernel
  have hruns : (late.execute 24 (Random.draw 0)).isOk = true := by decide +kernel
  obtain ⟨t, hcheck⟩ := exists_eq_ok haccepted
  obtain ⟨after, hexecute⟩ := exists_eq_ok hruns
  exact ⟨t, after, hcheck, hexecute, rfl, execute_hoisted hcheck hexecute⟩

end Program

end OpenQasm
