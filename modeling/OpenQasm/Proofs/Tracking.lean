import OpenQasm.Proofs.Layout
import OpenQasm.Proofs.Accepted

/-!
# What a run has declared

An executor that has executed some statements holds the registers and the gates that they declare,
and nothing else (`Executor.Tracks`).

* `tracks_of_execute`, `tracks_of_run`: one statement, then a whole run, by induction on it.
* `withMachine_eq_ok`, `run_cons`, `Program.execute_eq_ok`: when the parts of a run succeed.
* `exists_failing_of_run`: a run that fails has executed the statements before one that fails.
-/

namespace OpenQasm

/-- The quantum register that a statement declares. -/
def Action.quantum? : Action → Option (String × Nat)
  | .register .quantum name width => some (name, width)
  | _ => none

/-- The classical register that a statement declares. -/
def Action.classical? : Action → Option (String × Nat)
  | .register .classical name width => some (name, width)
  | _ => none

/-- The gate that a statement declares. -/
def Action.definition? : Action → Option (String × GateDefinition)
  | .gate s body => some (s.name, .defined s body)
  | .opaqueGate s => some (s.name, .sealed)
  | _ => none

/-- The gates that some statements declare. -/
def definitions (statements : List Statement) : GateTable :=
  statements.filterMap (·.action.definition?)

theorem Action.quantum?_eq_some_iff {a : Action} {name : String} {width : Nat} :
    a.quantum? = some (name, width) ↔ a.declares = some (name, .register .quantum width) := by
  cases a with
  | register kind _ _ => cases kind <;> simp [quantum?, declares]
  | _ => simp [quantum?, declares]

theorem Action.classical?_eq_some_iff {a : Action} {name : String} {width : Nat} :
    a.classical? = some (name, width) ↔ a.declares = some (name, .register .classical width) := by
  cases a with
  | register kind _ _ => cases kind <;> simp [classical?, declares]
  | _ => simp [classical?, declares]

/-- Only one kind of statement declares a quantum register. -/
theorem Action.eq_register_of_quantum? {a : Action} {name : String} {width : Nat}
    (h : a.quantum? = some (name, width)) : a = .register .quantum name width := by
  cases a with
  | register kind _ _ =>
    cases kind with
    | quantum =>
      cases h
      rfl
    | classical => cases h
  | _ => cases h

theorem mem_globals {statements : List Statement} {s : Statement} (hs : s ∈ statements)
    {binding : String × SymbolKind} (hd : s.action.declares = some binding) :
    binding ∈ globals statements := List.mem_filterMap.mpr ⟨s, hs, hd⟩

theorem definitions_append (xs ys : List Statement) :
    definitions (xs ++ ys) = definitions xs ++ definitions ys := List.filterMap_append

theorem filterMap_snoc {α β : Type} (f : α → Option β) (xs : List α) (x : α) :
    (xs ++ [x]).filterMap f = xs.filterMap f ++ (f x).toList := by
  rw [List.filterMap_append, List.filterMap_cons]
  cases f x <;> rfl

/-- A name that is not declared is not the name of a gate. -/
theorem lookup_definitions {statements : List Statement} {name : String}
    (h : name ∉ declaredNames statements) : (definitions statements).lookup name = none := by
  rw [List.lookup_eq_none_iff]
  rintro ⟨other, definition⟩ hmem
  obtain ⟨s, hs, hd⟩ := List.mem_filterMap.mp hmem
  rw [bne_iff_ne]
  rintro rfl
  have hdeclares : ∃ kind, s.action.declares = some (name, kind) := by
    cases ha : s.action with
    | gate signature body =>
      rw [ha] at hd
      cases hd
      exact ⟨_, rfl⟩
    | opaqueGate signature =>
      rw [ha] at hd
      cases hd
      exact ⟨_, rfl⟩
    | _ =>
      rw [ha] at hd
      cases hd
  obtain ⟨kind, hkind⟩ := hdeclares
  exact h (List.mem_map.mpr ⟨(name, kind), List.mem_filterMap.mpr ⟨s, hs, hkind⟩, rfl⟩)

/-- The value of a key that occurs once. -/
theorem lookup_of_mem {V : Type} {key : String} {value : V} : ∀ {l : List (String × V)},
    (l.map Prod.fst).Nodup → (key, value) ∈ l → l.lookup key = some value
  | [], _, h => absurd h List.not_mem_nil
  | (other, found) :: rest, hd, h => by
    rw [List.map_cons, List.nodup_cons] at hd
    rw [List.lookup_cons]
    rcases List.mem_cons.mp h with heq | hrest
    · cases heq
      simp
    · have hne : (key == other) = false := by
        rw [beq_eq_false_iff_ne]
        rintro rfl
        exact hd.1 (List.mem_map.mpr ⟨(key, value), hrest, rfl⟩)
      simp only [hne]
      exact lookup_of_mem hd.2 hrest

theorem mem_of_lookup {V : Type} {key : String} {value : V} {l : List (String × V)}
    (h : l.lookup key = some value) : (key, value) ∈ l := by
  obtain ⟨before, after, rfl, -⟩ := List.lookup_eq_some_iff.mp h
  exact List.mem_append_right _ List.mem_cons_self

theorem GateTable.lookup_insert (table : GateTable) (name : String) (definition : GateDefinition)
    (other : String) :
    (table.insert name definition).lookup other =
      if other = name then some definition else table.lookup other := by
  rw [GateTable.insert, List.lookup_cons]
  by_cases ho : other = name
  · subst ho
    simp
  · have hne : (other == name) = false := by simpa using ho
    rw [if_neg ho]
    simp only [hne]
    induction table with
    | nil => rfl
    | cons entry rest ih =>
      rw [List.filter_cons, List.lookup_cons]
      by_cases he : entry.1 = name
      · rw [if_neg (by simpa using he), ih, he, hne]
      · rw [if_pos (by simpa using he), List.lookup_cons, ih]

/-! ## Executing one statement -/

namespace Executor

variable {R : Type} {x after : Executor R} {before : List Statement}

/-- An executor that has executed some statements. -/
structure Tracks (x : Executor R) (before : List Statement) : Prop where
  laid : x.machine.Laid
  quantum : x.machine.quantum.map (fun r => (r.name, r.width)) =
    before.filterMap (·.action.quantum?)
  classical : x.machine.classical.map (fun r => (r.name, r.width)) =
    before.filterMap (·.action.classical?)
  gates : ∀ name, x.gates.lookup name = (definitions before).lookup name

/-- A register of the executor is declared by one of the statements. -/
theorem Tracks.declares_quantum (h : x.Tracks before) {r : QuantumRegister}
    (hr : r ∈ x.machine.quantum) :
    ∃ s ∈ before, s.action.declares = some (r.name, .register .quantum r.width) := by
  have hmem : (r.name, r.width) ∈ before.filterMap (·.action.quantum?) := by
    rw [← h.quantum]
    exact List.mem_map.mpr ⟨r, hr, rfl⟩
  obtain ⟨s, hs, hq⟩ := List.mem_filterMap.mp hmem
  exact ⟨s, hs, Action.quantum?_eq_some_iff.mp hq⟩

theorem Tracks.declares_classical (h : x.Tracks before) {r : ClassicalRegister}
    (hr : r ∈ x.machine.classical) :
    ∃ s ∈ before, s.action.declares = some (r.name, .register .classical r.width) := by
  have hmem : (r.name, r.width) ∈ before.filterMap (·.action.classical?) := by
    rw [← h.classical]
    exact List.mem_map.mpr ⟨r, hr, rfl⟩
  obtain ⟨s, hs, hc⟩ := List.mem_filterMap.mp hmem
  exact ⟨s, hs, Action.classical?_eq_some_iff.mp hc⟩

/-- The names of the registers that an executor has are among those that are declared. -/
theorem Tracks.mem_declaredNames (h : x.Tracks before) {name : String}
    (hname : name ∈ x.machine.registerNames) : name ∈ declaredNames before := by
  rw [Machine.registerNames, List.mem_append, List.mem_map, List.mem_map] at hname
  rcases hname with ⟨r, hr, rfl⟩ | ⟨r, hr, rfl⟩
  · obtain ⟨s, hs, hd⟩ := h.declares_quantum hr
    exact List.mem_map.mpr ⟨_, mem_globals hs hd, rfl⟩
  · obtain ⟨s, hs, hd⟩ := h.declares_classical hr
    exact List.mem_map.mpr ⟨_, mem_globals hs hd, rfl⟩

/-- One more statement, whose declaration is added to the machine or to the gates. -/
theorem Tracks.append (h : x.Tracks before) {s : Statement} (hlaid : after.machine.Laid)
    (hquantum : after.machine.quantum.map (fun r => (r.name, r.width)) =
      x.machine.quantum.map (fun r => (r.name, r.width)) ++ s.action.quantum?.toList)
    (hclassical : after.machine.classical.map (fun r => (r.name, r.width)) =
      x.machine.classical.map (fun r => (r.name, r.width)) ++ s.action.classical?.toList)
    (hgates : ∀ name, after.gates.lookup name =
      (x.gates.lookup name).or (s.action.definition?.toList.lookup name)) :
    after.Tracks (before ++ [s]) where
  laid := hlaid
  quantum := by rw [hquantum, h.quantum, filterMap_snoc]
  classical := by rw [hclassical, h.classical, filterMap_snoc]
  gates name := by
    rw [hgates, h.gates, definitions, definitions, filterMap_snoc, List.lookup_append]

/-- A statement that declares nothing, on a machine that keeps its registers. -/
theorem Tracks.keeps (h : x.Tracks before) {s : Statement} {machine : Machine R}
    (hk : x.machine.Keeps machine) (hs : s.action.quantum? = none ∧ s.action.classical? = none ∧
      s.action.definition? = none) : Tracks { x with machine } (before ++ [s]) := by
  obtain ⟨hq, hc, hg⟩ := hs
  refine h.append (hk.laid h.laid) ?_ ?_ fun name => ?_
  · rw [hk.quantum, hq]
    exact (List.append_nil _).symm
  · rw [hk.classical, hc]
    exact (List.append_nil _).symm
  · rw [hg]
    exact (Option.or_none).symm

/-- Only the machine changes. -/
theorem of_withMachine {o : Outcome (Machine R)} (h : x.withMachine o = ⟨after, none⟩) :
    o.error? = none ∧ after = { x with machine := o.state } := by
  obtain ⟨hstate, herror⟩ := Outcome.mk.inj h
  exact ⟨herror, hstate.symm⟩

theorem withMachine_eq_ok {o : Outcome (Machine R)} :
    x.withMachine o = ⟨after, none⟩ ↔
      ∃ machine, o = ⟨machine, none⟩ ∧ after = { x with machine } := by
  obtain ⟨machine, error?⟩ := o
  constructor
  · intro h
    cases h
    exact ⟨machine, rfl, rfl⟩
  · rintro ⟨machine, ho, rfl⟩
    cases ho
    rfl

theorem of_ofExcept {S : Type} {s : S} {y : Except RunError S}
    (h : (Outcome.ofExcept s y).error? = none) : y = .ok (Outcome.ofExcept s y).state := by
  cases y with
  | error e => cases h
  | ok a => rfl

variable [Scalar R]

/-- A statement succeeds when its action does. -/
theorem execute_eq {s : Statement} :
    x.execute s = ⟨after, none⟩ ↔ x.perform s.action = ⟨after, none⟩ := by
  unfold execute Outcome.located
  cases x.perform s.action with
  | mk state error =>
    cases error with
    | none => rfl
    | some e =>
      refine ⟨fun h => ?_, fun h => ?_⟩
      · cases (Outcome.mk.inj h).2
      · cases (Outcome.mk.inj h).2

/-- A run goes on behind a statement that succeeds. -/
theorem run_cons {next : Executor R} {s : Statement} (h : x.execute s = ⟨next, none⟩)
    (rest : List Statement) : x.run (s :: rest) = next.run rest := by
  rw [run, Outcome.forAll, h]
  rfl

omit [Scalar R] in
/-- A gate is declared under a new name. -/
theorem Tracks.insert (h : x.Tracks before) {s : Statement} {name : String}
    {definition : GateDefinition} (hs : s.action.definition? = some (name, definition))
    (hq : s.action.quantum? = none) (hc : s.action.classical? = none)
    (hnew : name ∉ declaredNames before) :
    Tracks { x with gates := x.gates.insert name definition } (before ++ [s]) := by
  refine h.append h.laid ?_ ?_ fun other => ?_
  · rw [hq]
    exact (List.append_nil _).symm
  · rw [hc]
    exact (List.append_nil _).symm
  · rw [hs, GateTable.lookup_insert]
    by_cases ho : other = name
    · subst ho
      rw [if_pos rfl, h.gates, lookup_definitions hnew]
      simp
    · have hne : (other == name) = false := by simpa using ho
      rw [if_neg ho]
      simp [List.lookup_cons, hne]

/-- **One statement**: what is declared so far grows by what it declares. -/
theorem tracks_of_execute (h : x.Tracks before) {s : Statement}
    (hnew : ∀ name ∈ declaredNames [s], name ∉ declaredNames before)
    (he : x.execute s = ⟨after, none⟩) : after.Tracks (before ++ [s]) := by
  rw [execute_eq] at he
  rw [declaredNames, globals_singleton] at hnew
  cases hs : s.action with
  | register kind name width =>
    rw [hs] at he
    cases kind with
    | quantum =>
      obtain ⟨hok, rfl⟩ := of_withMachine he
      have hd := mapError_eq_ok.mp (of_ofExcept hok)
      obtain ⟨hquantum, hclassical⟩ := Machine.registers_of_declareQuantum hd
      refine h.append (Machine.laid_of_declareQuantum h.laid hd) ?_ ?_ fun other => ?_
      · rw [hquantum, List.map_append, hs]
        rfl
      · rw [hclassical, hs]
        exact (List.append_nil _).symm
      · rw [hs]
        exact Option.or_none.symm
    | classical =>
      obtain ⟨hok, rfl⟩ := of_withMachine he
      have hd := mapError_eq_ok.mp (of_ofExcept hok)
      obtain ⟨hquantum, hclassical⟩ := Machine.registers_of_declareClassical hd
      refine h.append (Machine.laid_of_declareClassical h.laid hd) ?_ ?_ fun other => ?_
      · rw [hquantum, hs]
        exact (List.append_nil _).symm
      · rw [hclassical, List.map_append, hs, List.map_singleton, ClassicalRegister.width,
          List.length_replicate]
        rfl
      · rw [hs]
        exact Option.or_none.symm
  | gate signature body =>
    rw [hs] at he hnew
    obtain ⟨rfl, -⟩ := Outcome.mk.inj he
    exact h.insert (by rw [hs]; rfl) (by rw [hs]; rfl) (by rw [hs]; rfl)
      (hnew _ (List.mem_singleton_self _))
  | opaqueGate signature =>
    rw [hs] at he hnew
    obtain ⟨rfl, -⟩ := Outcome.mk.inj he
    exact h.insert (by rw [hs]; rfl) (by rw [hs]; rfl) (by rw [hs]; rfl)
      (hnew _ (List.mem_singleton_self _))
  | operation o =>
    rw [hs] at he
    obtain ⟨-, rfl⟩ := of_withMachine he
    exact h.keeps (Machine.keeps_operate x.gates h.laid o) (by rw [hs]; exact ⟨rfl, rfl, rfl⟩)
  | barrier operands =>
    have hsame : after = x := by
      rw [hs] at he
      have hok := of_ofExcept (congrArg Outcome.error? he)
      rw [show (Outcome.ofExcept _ _).state = after from congrArg Outcome.state he] at hok
      rw [mapError_eq_ok] at hok
      cases hb : x.machine.checkBarrier operands with
      | error e => rw [hb] at hok; cases hok
      | ok u =>
        rw [hb] at hok
        exact (Except.ok.inj hok).symm
    rw [hsame]
    exact h.keeps (Machine.Keeps.refl _) (by rw [hs]; exact ⟨rfl, rfl, rfl⟩)
  | conditional register value o pos =>
    rw [hs] at he
    unfold perform at he
    dsimp only at he
    split at he
    · cases (Outcome.mk.inj he).2
    · obtain ⟨rfl, -⟩ := Outcome.mk.inj he
      exact h.keeps (Machine.Keeps.refl _) (by rw [hs]; exact ⟨rfl, rfl, rfl⟩)
    · obtain ⟨-, rfl⟩ := of_withMachine he
      exact h.keeps (Machine.keeps_operate x.gates h.laid o) (by rw [hs]; exact ⟨rfl, rfl, rfl⟩)

/-- **A whole run**: everything that the statements declare, and nothing else. -/
theorem tracks_of_run : ∀ {rest before : List Statement} {x : Executor R}, x.Tracks before →
    (declaredNames (before ++ rest)).Nodup → x.run rest = ⟨after, none⟩ →
    after.Tracks (before ++ rest)
  | [], before, x, h, _, hr => by
    obtain ⟨rfl, -⟩ := Outcome.mk.inj hr
    rwa [List.append_nil]
  | s :: rest, before, x, h, hd, hr => by
    rw [run, Outcome.forAll] at hr
    have hsplit : before ++ s :: rest = before ++ [s] ++ rest := by simp
    split at hr
    · rename_i next hnext
      have hnew : ∀ name ∈ declaredNames [s], name ∉ declaredNames before := by
        intro name hs hb
        rw [hsplit, declaredNames_append, declaredNames_append] at hd
        exact (List.nodup_append'.mp (List.nodup_append'.mp hd).1).2.2 hb hs
      -- the statement moves from the rest to what has been executed
      rw [hsplit] at hd ⊢
      exact tracks_of_run (tracks_of_execute h hnew hnext) hd hr
    · rename_i hfailed
      exact absurd hr (hfailed _)

theorem tracks_initial (maxQubits : Nat) (draws : Nat → R) :
    (initial maxQubits draws).Tracks [] where
  laid := Machine.laid_initial maxQubits draws
  quantum := rfl
  classical := rfl
  gates _ := rfl

/-- A run that fails has executed the statements before one that fails. -/
theorem exists_failing_of_run : ∀ {statements : List Statement} {x : Executor R} {e : RunError},
    (x.run statements).error? = some e →
    ∃ before s rest after, statements = before ++ s :: rest ∧ x.run before = ⟨after, none⟩ ∧
      (after.execute s).error? = some e
  | [], _, _, h => nomatch h
  | s :: rest, x, e, h => by
    rw [run, Outcome.forAll] at h
    split at h
    · rename_i next hnext
      obtain ⟨before, t, tail, after, rfl, hrun, hfailed⟩ := exists_failing_of_run h
      exact ⟨s :: before, t, tail, after, rfl, (run_cons hnext before).trans hrun, hfailed⟩
    · exact ⟨[], s, rest, x, rfl, rfl, h⟩

end Executor

/-- A program is executed by running its statements. -/
theorem Program.execute_eq_ok {R : Type} [Scalar R] {p : Program} {maxQubits : Nat}
    {draws : Nat → R} {after : Machine R} : p.execute maxQubits draws = .ok after ↔
    ∃ x, (Executor.initial maxQubits draws).run p.statements = ⟨x, none⟩ ∧ x.machine = after := by
  unfold Program.execute
  cases (Executor.initial maxQubits draws).run p.statements with
  | mk x error? =>
    cases error? with
    | none =>
      constructor
      · exact fun h => ⟨x, rfl, Except.ok.inj h⟩
      · rintro ⟨y, hy, rfl⟩
        cases hy
        rfl
    | some e => exact ⟨nofun, fun ⟨_, h, _⟩ => nomatch h⟩

end OpenQasm
