import OpenQasm.Proofs.Calling
import OpenQasm.Proofs.Tracking
import OpenQasm.Random.ChaCha

/-!
# The checker and the runtime agree

When an accepted program is executed, the registers and gates of the executor are what the checker
took their names to stand for (`Executor.Tracks.agrees`, `gates_agree`), so every statement is legal
in the state that it meets. What it fails with is one of the faults that `RunFault.Remains` lists
(`remains_of_execute`).

* **`execute_fault_of_check`**: what the run of an accepted program never fails with.
* `unaddressable_widened`: an accepted program that asks for more than an address space has.
-/

namespace OpenQasm

/-! ## What the checker took names to stand for -/

section Agree

variable {R : Type} {p : Program} {before rest : List Statement} {x : Executor R}

theorem mem_statements {s : Statement} (hsplit : p.statements = before ++ s :: rest) :
    s ∈ p.statements := by
  rw [hsplit]
  exact List.mem_append_right _ List.mem_cons_self

theorem Program.WellFormed.globalEnv_eq (hp : p.WellFormed) {s : Statement}
    (hs : s ∈ p.statements) {name : String} {kind : SymbolKind}
    (hd : s.action.declares = some (name, kind)) : globalEnv p.statements name = some kind :=
  lookup_of_mem hp.distinct (mem_globals hs hd)

/-- What is declared globally is no formal. -/
theorem global_globalEnv (statements : List Statement) : (globalEnv statements).Global := by
  intro name kind h position
  obtain ⟨s, -, hd⟩ := List.mem_filterMap.mp (mem_of_lookup h)
  cases ha : s.action with
  | register register width =>
    rw [ha] at hd
    cases hd
    exact ⟨nofun, nofun⟩
  | gate signature body =>
    rw [ha] at hd
    cases hd
    exact ⟨nofun, nofun⟩
  | opaqueGate signature =>
    rw [ha] at hd
    cases hd
    exact ⟨nofun, nofun⟩
  | _ =>
    rw [ha] at hd
    cases hd

/-- The registers of an executor are what the checker took their names to stand for. -/
theorem Executor.Tracks.agrees (h : x.Tracks before) (hp : p.WellFormed)
    (hsplit : p.statements = before ++ rest) : x.machine.Agrees (globalEnv p.statements) where
  quantum r hr := by
    obtain ⟨s, hs, hd⟩ := h.declares_quantum hr
    exact hp.globalEnv_eq (by rw [hsplit]; exact List.mem_append_left _ hs) hd
  classical r hr := by
    obtain ⟨s, hs, hd⟩ := h.declares_classical hr
    exact hp.globalEnv_eq (by rw [hsplit]; exact List.mem_append_left _ hs) hd

/-- The defined gates of an executor have been declared. -/
theorem Executor.Tracks.exists_gate (h : x.Tracks before) {name : String} {s : Signature}
    {body : List BodyStatement} (hfound : x.gates.lookup name = some (.defined s body)) :
    s.name = name ∧ ∃ statement ∈ before, statement.action = .gate s body := by
  rw [h.gates] at hfound
  obtain ⟨statement, hs, hd⟩ := List.mem_filterMap.mp (mem_of_lookup hfound)
  cases ha : statement.action with
  | gate signature inner =>
    rw [ha] at hd
    cases hd
    exact ⟨rfl, statement, hs, ha⟩
  | _ =>
    rw [ha] at hd
    cases hd

/-- The defined gates of an executor are what the checker took their names to stand for. -/
theorem Executor.Tracks.gates_agree (h : x.Tracks before) (hp : p.WellFormed)
    (hsplit : p.statements = before ++ rest) : x.gates.Agrees (globalEnv p.statements) := by
  intro name s body hfound
  obtain ⟨rfl, statement, hs, ha⟩ := h.exists_gate hfound
  have hin : statement ∈ p.statements := by
    rw [hsplit]
    exact List.mem_append_left _ hs
  have hlegal := hp.legal statement hin
  rw [ha] at hlegal
  exact ⟨hp.globalEnv_eq hin (by rw [ha]; rfl), hlegal⟩

/-! ## What a statement fails with -/

namespace Machine

variable {m : Machine R} {named : Prop} {beyond : RunFault → Prop}

theorem ends_checkFresh {name : String} {width : Nat} (hwidth : width ≠ 0)
    (hname : name ∉ m.registerNames) :
    Ends (m.checkFresh name width) (fun _ => True) (RunFault.Remains named beyond) := by
  rw [checkFresh_eq_ok.mpr ⟨hwidth, hname⟩]
  trivial

theorem ends_declareClassical {name : String} {width : Nat} (hwidth : width ≠ 0)
    (hname : name ∉ m.registerNames)
    (hbeyond : ClassicalRegister.maxWidth < width → beyond (.unaddressable name width)) :
    Ends (m.declareClassical name width) (fun _ => True) (RunFault.Remains named beyond) := by
  unfold declareClassical
  refine (ends_checkFresh hwidth hname).bind fun _ _ _ => ?_
  exact Ends.ite_throw hbeyond fun _ => trivial

/-- A declaration within the limit gets its qubits. -/
theorem ends_declareQuantum [Scalar R] (hm : m.Laid) {name : String} {width : Nat}
    (hwidth : width ≠ 0) (hname : name ∉ m.registerNames) :
    Ends (m.declareQuantum name width) (fun _ => True) (RunFault.Remains named beyond) := by
  unfold declareQuantum
  refine (ends_checkFresh hwidth hname).bind fun _ _ _ => ?_
  refine Ends.ite_throw (fun _ => trivial) fun hlimit => ?_
  have hle : width ≤ StateVector.maxQubits := by
    have hcount : StateVector.maxQubits < countLimit := by decide
    have := hm.limit_le
    omega
  have hzero : Ends ((StateVector.zeroState width).mapError RunFault.algebra)
      (fun _ : StateVector (Amplitude R) => True) (RunFault.Remains named beyond) := by
    rw [StateVector.zeroState, if_neg (Nat.not_lt.mpr hle)]
    trivial
  exact hzero.bind fun _ _ _ => trivial

end Machine

namespace Executor

variable [Scalar R] {named : Prop}

/-- The operation that a statement executes in a state, if its condition holds there. -/
def Executes (x : Executor R) : Action → Operation → Prop
  | .operation o, executed => executed = o
  | .conditional register value o _, executed =>
    x.machine.condition register value = .ok true ∧ executed = o
  | .register .., _ | .gate .., _ | .opaqueGate _, _ | .barrier _, _ => False

/-- What a statement asks for that has no place in an address space: a classical register that it
declares, or a circuit inside a gate that it calls. -/
def Beyond (x : Executor R) (a : Action) : RunFault → Prop
  | .algebra e => ∃ c, x.Executes a (.call c) ∧ x.gates.Exceeds c.gate x.machine.qubits e
  | .unaddressable name width =>
    a = .register .classical name width ∧ ClassicalRegister.maxWidth < width
  | _ => False

/-- The names that a statement uses can be resolved. A declaration uses none. -/
def ResolvesAction (x : Executor R) (a : Action) : Prop :=
  (∀ operands, a = .barrier operands → ∀ v ∈ operands, x.machine.isQuantum v.name = true) ∧
    (∀ register value o pos, a = .conditional register value o pos →
      x.machine.isClassical register.name = true ∧ value.variables = []) ∧
    ∀ o, x.Executes a o → x.machine.ResolvesOperation x.gates o

/-- **A statement of an accepted program** has only the faults that remain, when those before it
have been executed. -/
theorem remains_of_execute (h : x.Tracks before) (hp : p.WellFormed) {s : Statement}
    (hsplit : p.statements = before ++ s :: rest) (hnamed : named → x.ResolvesAction s.action)
    {e : RunError} (he : (x.execute s).error? = some e) :
    e.fault.Remains named (x.Beyond s.action) := by
  obtain ⟨e, hperform, rfl⟩ : ∃ inner, (x.perform s.action).error? = some inner ∧
      inner.located s.pos = e := Option.map_eq_some_iff.mp he
  show e.fault.Remains named (x.Beyond s.action)
  have hin := mem_statements hsplit
  have hsound := hp.sound s hin
  have hlegal := hp.legal s hin
  have hagrees := h.agrees hp hsplit
  have htable := h.gates_agree hp hsplit
  have hglobal := global_globalEnv p.statements
  have hnew : ∀ name kind, s.action.declares = some (name, kind) →
      name ∉ x.machine.registerNames := by
    intro name kind hd hname
    have hdistinct := hp.distinct
    rw [hsplit, declaredNames_append] at hdistinct
    refine (List.nodup_append'.mp hdistinct).2.2 (h.mem_declaredNames hname) ?_
    exact List.mem_map.mpr ⟨_, mem_globals List.mem_cons_self hd, rfl⟩
  cases hs : s.action with
  | register kind name width =>
    rw [hs] at hperform hsound hnew
    have hname := hnew name _ rfl
    cases kind with
    | quantum =>
      exact Outcome.ends_of_ofExcept (Machine.ends_declareQuantum h.laid hsound hname).bare hperform
    | classical =>
      have hdeclare : Ends (x.machine.declareClassical name width) (fun _ => True)
          (RunFault.Remains named (x.Beyond (.register .classical name width))) :=
        Machine.ends_declareClassical hsound hname fun hwide => ⟨rfl, hwide⟩
      exact Outcome.ends_of_ofExcept hdeclare.bare hperform
  | gate signature body =>
    rw [hs] at hperform
    cases hperform
  | opaqueGate signature =>
    rw [hs] at hperform
    cases hperform
  | operation o =>
    rw [hs] at hperform hlegal hnamed
    exact Machine.remains_of_operate h.laid hagrees hglobal htable hlegal
      (fun hn => (hnamed hn).2.2 o rfl) (fun c hc e he => ⟨c, hc.symm, he⟩) hperform
  | barrier operands =>
    rw [hs] at hperform hnamed
    have hbarrier : Ends (((x.machine.checkBarrier operands).map fun _ => x).mapError RunError.bare)
        (fun _ => True) (·.fault.Remains named (x.Beyond (.barrier operands))) :=
      ((Machine.ends_checkBarrier fun hn => (hnamed hn).1 operands rfl).map
        fun _ _ => trivial).bare
    exact Outcome.ends_of_ofExcept hbarrier hperform
  | conditional register value o pos =>
    rw [hs] at hperform hlegal hnamed
    obtain ⟨hregister, -, hoperation⟩ := hlegal
    have hcondition : Ends (x.machine.condition register value) (fun _ => True)
        (·.fault.Remains named (x.Beyond (.conditional register value o pos))) :=
      Machine.ends_condition hagrees hglobal hregister
        fun hn => (hnamed hn).2.1 register value o pos rfl
    unfold perform at hperform
    dsimp only at hperform
    split at hperform
    · rename_i hfailed
      obtain rfl := Option.some.inj hperform
      exact hcondition.error_of_eq hfailed
    · cases hperform
    · rename_i hholds
      exact Machine.remains_of_operate h.laid hagrees hglobal htable hoperation
        (fun hn => (hnamed hn).2.2 o ⟨hholds, rfl⟩)
        (fun c hc e he => ⟨c, ⟨hholds, hc.symm⟩, he⟩) hperform

end Executor

/-- What is not among the faults that remain. -/
theorem RunFault.Remains.excludes {named : Prop} {beyond : RunFault → Prop} {fault : RunFault}
    (h : fault.Remains named beyond) :
    (∀ name, fault ≠ .duplicateRegister name) ∧ (∀ name, fault ≠ .emptyRegister name) ∧
      (∀ name index width, fault ≠ .indexOutOfRange name index width) ∧
      (∀ passed, fault ≠ .sizeMismatch (.rotationParameters passed)) ∧
      (∀ gate expected passed, fault ≠ .sizeMismatch (.gateParameters gate expected passed)) ∧
      (∀ dimension qubits, fault ≠ .sizeMismatch (.operatorWidth dimension qubits)) ∧
      ∀ qubit qubits, fault ≠ .sizeMismatch (.qubitOutside qubit qubits) := by
  refine ⟨?_, ?_, ?_, ?_, ?_, ?_, ?_⟩
  · rintro name rfl
    exact h
  · rintro name rfl
    exact h
  · rintro name index width rfl
    exact h
  · rintro passed rfl
    exact h
  · rintro gate expected passed rfl
    exact h
  · rintro dimension qubits rfl
    exact h
  · rintro qubit qubits rfl
    exact h

end Agree

namespace Program

variable {R : Type} [Scalar R] {p : Program} {maxQubits : Nat} {draws : Nat → R}

/-- The run of a program fails in one of its statements, when those before it have been executed. -/
theorem exists_failing_statement {e : RunError} (hd : (declaredNames p.statements).Nodup)
    (h : p.execute maxQubits draws = .error e) :
    ∃ before s rest, ∃ x : Executor R, p.statements = before ++ s :: rest ∧ x.Tracks before ∧
      Executor.Reached maxQubits draws x ∧ (x.execute s).error? = some e := by
  have hrun : ((Executor.initial maxQubits draws).run p.statements).error? = some e := by
    unfold execute at h
    split at h
    · cases h
    · rename_i hrun
      cases h
      rw [hrun]
  obtain ⟨before, s, rest, x, hsplit, hbefore, hfailed⟩ := Executor.exists_failing_of_run hrun
  rw [hsplit, declaredNames_append] at hd
  have htracks : x.Tracks before :=
    Executor.tracks_of_run (Executor.tracks_initial maxQubits draws)
      (List.nodup_append'.mp hd).1 hbefore
  have hinitial : Executor.Reached maxQubits draws (.initial maxQubits draws) := .initial
  have hreached := hinitial.run before
  rw [hbefore] at hreached
  exact ⟨before, s, rest, x, hsplit, htracks, hreached, hfailed⟩

/-- No call in the body of a gate names an operand twice. -/
def Apart (p : Program) : Prop :=
  ∀ s ∈ p.statements, ∀ signature body, s.action = .gate signature body →
    ∀ c pos, ⟨.call c, pos⟩ ∈ body → (c.operands.map Operand.name).Nodup

/-- A program asks for a circuit of this width, which has no place in an address space: it declares
a gate with as many arguments. The circuit is no wider than what the gate around it is applied to if
no call in a body names an operand twice. -/
structure AsksFor (p : Program) (maxQubits q : Nat) : Prop where
  wide : SquareMatrix.maxQubits < q
  declared : ∃ s ∈ p.statements, ∃ signature body,
    s.action = .gate signature body ∧ signature.arguments.length = q
  le_of_apart : p.Apart → q ≤ min maxQubits StateVector.maxQubits

/-- What a statement asks for that has no place in an address space, its program asks for. -/
theorem asksFor_of_exceeds {before rest : List Statement} {x : Executor R}
    (htracks : x.Tracks before) (hreached : Executor.Reached maxQubits draws x)
    (hsplit : p.statements = before ++ rest) {gate : GateName} {e : AlgebraError}
    (h : x.gates.Exceeds gate x.machine.qubits e) :
    ∃ q, e = .unaddressable q ∧ p.AsksFor maxQubits q := by
  obtain ⟨q, rfl, hwide, ⟨name, signature, body, -, hfound, hcount⟩, hapart⟩ := h
  have hmem : ∀ s ∈ before, s ∈ p.statements := by
    intro s hs
    rw [hsplit]
    exact List.mem_append_left _ hs
  obtain ⟨-, s, hs, ha⟩ := htracks.exists_gate hfound
  refine ⟨q, rfl, hwide, ⟨s, hmem s hs, signature, body, ha, hcount⟩, fun hp => ?_⟩
  have hgate : x.gates.Apart gate := by
    intro inner _ signature body hinner
    obtain ⟨-, s, hs, ha⟩ := htracks.exists_gate hinner
    exact hp s (hmem s hs) signature body ha
  rw [← hreached.limit]
  exact (hapart hgate).trans htracks.laid.qubits_le

/-- **The checker and the runtime agree on declarations, indices and sizes**: what is accepted runs,
or it fails for another reason. It may ask for what has no place in an address space: for a
classical register, or for a circuit inside a gate that is as wide as the number of arguments of
one of its gates. While no call in a body names an operand twice, which is not checked, such a
circuit is no wider than the limit on qubits. -/
theorem execute_fault_of_check {t : SymbolTable} (h : p.check = .ok t) (maxQubits : Nat)
    (draws : Nat → R) :
    (∃ after, p.execute maxQubits draws = .ok after) ∨
      ∃ e, p.execute maxQubits draws = .error e ∧
        (∀ name, e.fault ≠ .duplicateRegister name) ∧ (∀ name, e.fault ≠ .emptyRegister name) ∧
        (∀ name index width, e.fault ≠ .indexOutOfRange name index width) ∧
        (∀ passed, e.fault ≠ .sizeMismatch (.rotationParameters passed)) ∧
        (∀ gate expected passed,
          e.fault ≠ .sizeMismatch (.gateParameters gate expected passed)) ∧
        (∀ dimension qubits, e.fault ≠ .sizeMismatch (.operatorWidth dimension qubits)) ∧
        (∀ qubit qubits, e.fault ≠ .sizeMismatch (.qubitOutside qubit qubits)) ∧
        (∀ a, e.fault = .algebra a →
          a = .zeroProbability ∨ (∃ fault, a = .invalidPermutation fault) ∨
            ∃ q, a = .unaddressable q ∧ p.AsksFor maxQubits q) ∧
        ∀ name width, e.fault = .unaddressable name width →
          ClassicalRegister.maxWidth < width ∧
            ∃ s ∈ p.statements, s.action = .register .classical name width := by
  have hp := wellFormed_of_check h
  cases he : p.execute maxQubits draws with
  | ok after => exact Or.inl ⟨after, rfl⟩
  | error e =>
    obtain ⟨before, s, rest, x, hsplit, htracks, hreached, hfailed⟩ :=
      exists_failing_statement hp.distinct he
    have hremains : e.fault.Remains False (x.Beyond s.action) :=
      Executor.remains_of_execute htracks hp hsplit False.elim hfailed
    obtain ⟨hduplicate, hempty, hindex, hrotation, hparameters, hdimension, hqubit⟩ :=
      hremains.excludes
    refine Or.inr ⟨e, rfl, hduplicate, hempty, hindex, hrotation, hparameters, hdimension, hqubit,
      fun a ha => ?_, fun name width hwidth => ?_⟩
    · rw [ha] at hremains
      rcases hremains with hzero | hpermutation | ⟨c, -, hexceeds⟩
      · exact Or.inl hzero
      · exact Or.inr (Or.inl hpermutation)
      · exact Or.inr (Or.inr (asksFor_of_exceeds htracks hreached hsplit hexceeds))
    · rw [hwidth] at hremains
      exact ⟨hremains.2, s, mem_statements hsplit, hremains.1⟩

end Program

/-- A gate with a parameter, applied to the qubits of a register and under a condition:
```
qreg q[2];
creg c[2];
gate turn(t) a, b { U(t, 0, 0) a; CX a, b; }
turn(pi) q[0], q[1];
measure q -> c;
if (c == 3) turn(pi) q[1], q[1];
```
The last call names a qubit twice, which is not checked. -/
def turned : Program where
  file := "turn.qasm"
  version := ⟨20, -1⟩
  includes := []
  statements :=
    [⟨.register .quantum "q" 2, ⟨"turn.qasm", 2, 1⟩⟩,
      ⟨.register .classical "c" 2, ⟨"turn.qasm", 3, 1⟩⟩,
      ⟨.gate ⟨"turn", some ["t"], ["a", "b"]⟩
        [⟨.call ⟨.rotation, some [.operand ⟨"t", none, ⟨"turn.qasm", 4, 25⟩⟩,
            .integer 0 ⟨"turn.qasm", 4, 28⟩, .integer 0 ⟨"turn.qasm", 4, 31⟩],
            [⟨"a", none, ⟨"turn.qasm", 4, 34⟩⟩]⟩, ⟨"turn.qasm", 4, 23⟩⟩,
          ⟨.call ⟨.controlledNot, none, [⟨"a", none, ⟨"turn.qasm", 4, 40⟩⟩,
            ⟨"b", none, ⟨"turn.qasm", 4, 43⟩⟩]⟩, ⟨"turn.qasm", 4, 37⟩⟩], ⟨"turn.qasm", 4, 1⟩⟩,
      ⟨.operation (.call ⟨.named "turn", some [.pi ⟨"turn.qasm", 5, 6⟩],
        [⟨"q", some 0, ⟨"turn.qasm", 5, 10⟩⟩, ⟨"q", some 1, ⟨"turn.qasm", 5, 16⟩⟩]⟩),
        ⟨"turn.qasm", 5, 1⟩⟩,
      ⟨.operation (.measure ⟨"q", none, ⟨"turn.qasm", 6, 9⟩⟩ ⟨"c", none, ⟨"turn.qasm", 6, 14⟩⟩),
        ⟨"turn.qasm", 6, 1⟩⟩,
      ⟨.conditional ⟨"c", none, ⟨"turn.qasm", 7, 5⟩⟩ (.integer 3 ⟨"turn.qasm", 7, 10⟩)
        (.call ⟨.named "turn", some [.pi ⟨"turn.qasm", 7, 18⟩],
          [⟨"q", some 1, ⟨"turn.qasm", 7, 22⟩⟩, ⟨"q", some 1, ⟨"turn.qasm", 7, 28⟩⟩]⟩)
        ⟨"turn.qasm", 7, 13⟩, ⟨"turn.qasm", 7, 1⟩⟩]

/-- The program is accepted, and runs over doubles as every accepted program does. -/
theorem execute_turned : ∃ t, turned.check = .ok t ∧
    ((∃ after, turned.execute 24 (Random.draw 0) = .ok after) ∨
      ∃ e, turned.execute 24 (Random.draw 0) = .error e ∧
        (∀ name, e.fault ≠ .duplicateRegister name) ∧
        (∀ name index width, e.fault ≠ .indexOutOfRange name index width) ∧
        ∀ gate expected passed,
          e.fault ≠ .sizeMismatch (.gateParameters gate expected passed)) := by
  have haccepted : turned.check.isOk = true := by decide +kernel
  obtain ⟨t, hcheck⟩ := exists_eq_ok haccepted
  refine ⟨t, hcheck, ?_⟩
  rcases Program.execute_fault_of_check hcheck 24 (Random.draw 0) with hok | ⟨e, he, hfault⟩
  · exact Or.inl hok
  · obtain ⟨hduplicate, -, hindex, -, hparameters, -⟩ := hfault
    exact Or.inr ⟨e, he, hduplicate, hindex, hparameters⟩

/-- A gate with these arguments, to which a gate with one argument passes its argument for each:
```
qreg q[1];
gate w a0, a1, …, a30 { }
gate g a { w a, a, …, a; }
g q[0];
```
-/
def widened (arguments : List String) : Program where
  file := "wide.qasm"
  version := ⟨20, -1⟩
  includes := []
  statements :=
    [⟨.register .quantum "q" 1, ⟨"wide.qasm", 2, 1⟩⟩,
      ⟨.gate ⟨"w", none, arguments⟩ [], ⟨"wide.qasm", 3, 1⟩⟩,
      ⟨.gate ⟨"g", none, ["a"]⟩
        [⟨.call ⟨.named "w", none, arguments.mapIdx fun i _ =>
          ⟨"a", none, ⟨"wide.qasm", 4, 14 + 3 * i⟩⟩⟩, ⟨"wide.qasm", 4, 12⟩⟩], ⟨"wide.qasm", 4, 1⟩⟩,
      ⟨.operation (.call ⟨.named "g", none, [⟨"q", some 0, ⟨"wide.qasm", 5, 3⟩⟩]⟩),
        ⟨"wide.qasm", 5, 1⟩⟩]

/-- The 31 arguments of the outer gate. -/
def manyArguments : List String := (List.range 31).map fun i => "a" ++ toString i

/-- **An accepted program can ask for what has no place in an address space.** Its call is one
application to one qubit. The circuit inside is on 31 qubits, and it is not seen that they are all
the same one before there has to be room for a matrix of dimension `2 ^ 31`. -/
theorem unaddressable_widened : (∃ t, (widened manyArguments).check = .ok t) ∧
    ∃ e, (widened manyArguments).execute 24 (Random.draw 0) = .error e ∧
      e.fault = .algebra (.unaddressable 31) := by
  constructor
  · exact exists_eq_ok (by decide +kernel)
  · exact exists_eq_error (by decide +kernel)

end OpenQasm
