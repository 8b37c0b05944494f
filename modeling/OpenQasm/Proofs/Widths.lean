import OpenQasm.Proofs.Agreement
import OpenQasm.Proofs.Interruption
import OpenQasm.Proofs.Resolution
import OpenQasm.Quantum.Building
import OpenQasm.Random.ChaCha

/-!
# How wide the circuits inside a gate are

Resolving a gate builds matrices for the circuits inside it, and those for a circuit before it is
known whether the circuit can be placed. This is bounded by the qubits that the gate is applied to
if the steps inside it are spread over distinct qubits (`Gate.Spread`), as they are when no call in
a body names an operand twice (`GateTable.Apart`). The checker does not ask for it.

* `Building.result_resolve`: noting what is built does not change what a gate amounts to.
* `Gate.dimensions_le`: what is built for a spread gate.
* **`Program.resolution_bounded`**: every application in the run of an accepted program.
-/

namespace OpenQasm

/-! ## What is built -/

namespace Steps

variable {ε σ α β : Type} {s : σ}

/-- How steps end, whatever they leave. -/
def result : EStateM.Result ε σ α → Except ε α
  | .ok a _ => .ok a
  | .error e _ => .error e

/-- The state that steps leave, however they end. -/
def left : EStateM.Result ε σ α → σ
  | .ok _ after | .error _ after => after

theorem bind_apply (p : Steps ε σ α) (next : α → Steps ε σ β) :
    (p >>= next) s =
      match p s with
      | .ok a after => next a after
      | .error e after => .error e after := rfl

theorem result_bind {p : Steps ε σ α} {next : α → Steps ε σ β} {x : Except ε α}
    {f : α → Except ε β} (hp : result (p s) = x) (hnext : ∀ a after, result (next a after) = f a) :
    result ((p >>= next) s) = (x >>= f) := by
  rw [bind_apply]
  subst hp
  cases p s with
  | ok a after => exact hnext a after
  | error e after => rfl

theorem result_consult (look : σ → Except ε α) : result (consult look s) = look s := by
  unfold consult
  cases look s <;> rfl

end Steps

namespace Building

open Steps

variable {A : Type} [Zero A] [One A] [Add A] [Mul A] [BEq A]

theorem result_note_bind {α : Type} (d : Nat) (next : Unit → Building α) (noted : List Nat) :
    result ((note d >>= next) noted) = result (next () (noted ++ [d])) := rfl

omit [Add A] in
theorem result_redimension (operator : SquareMatrix A) (positions noted : List Nat) :
    result (redimension operator positions noted) = operator.redimension positions := by
  unfold redimension
  rw [result_note_bind]
  refine (result_bind (f := .ok) (result_consult _) fun lifted after => rfl).trans ?_
  cases operator.redimension positions <;> rfl

mutual

/-- **Noting what is built** does not change what a gate amounts to. -/
theorem result_resolve : ∀ (gate : Gate A) (noted : List Nat),
    result (resolve gate noted) = gate.resolve
  | .operator matrix, noted => by
    rw [resolve, Gate.resolve]
    rfl
  | .composite qubits circuit, noted => by
    rw [resolve, Gate.resolve, result_note_bind]
    refine result_bind (result_consult _) fun start noted => ?_
    exact result_resolveAfter circuit qubits start noted

theorem result_resolveAfter : ∀ (circuit : Circuit A) (n : Nat) (before : SquareMatrix A)
    (noted : List Nat),
    result (resolveAfter n before circuit noted) = Gate.resolveAfter n before circuit
  | .done, n, before, noted => by
    rw [resolveAfter, Gate.resolveAfter]
    rfl
  | .step gate targets rest, n, before, noted => by
    rw [resolveAfter, Gate.resolveAfter]
    refine result_bind (result_resolve gate noted) fun operator noted => ?_
    simp only [Gate.advance, bind_assoc]
    refine result_bind (result_consult _) fun positions noted => ?_
    refine result_bind (result_redimension operator positions noted) fun lifted noted => ?_
    refine result_bind (result_consult _) fun after noted => ?_
    rw [result_note_bind]
    exact result_resolveAfter rest n after _

end

/-- Steps note nothing above a bound, and answer what satisfies `post`. -/
def Stays {α : Type} (bound : Nat) (p : Building α) (post : α → Prop) : Prop :=
  ∀ noted, (∀ d ∈ noted, d ≤ bound) →
    (∀ d ∈ left (p noted), d ≤ bound) ∧ ∀ a, result (p noted) = .ok a → post a

namespace Stays

variable {α β : Type} {bound : Nat} {p : Building α} {post : α → Prop} {post' : β → Prop}

theorem bind {next : α → Building β} (hp : Stays bound p post)
    (hnext : ∀ a, post a → Stays bound (next a) post') : Stays bound (p >>= next) post' := by
  intro noted hnoted
  obtain ⟨hleft, hpost⟩ := hp noted hnoted
  rw [bind_apply]
  cases hresult : p noted with
  | error e after =>
    rw [hresult] at hleft
    exact ⟨hleft, nofun⟩
  | ok a after =>
    rw [hresult] at hleft hpost
    exact hnext a (hpost a rfl) after hleft

theorem pure {a : α} (ha : post a) : Stays bound (Pure.pure a) post :=
  fun _ hnoted => ⟨hnoted, fun _ hb => Except.ok.inj hb ▸ ha⟩

theorem note {d : Nat} (hd : d ≤ bound) : Stays bound (note d) fun _ => True := by
  intro noted hnoted
  refine ⟨fun e he => ?_, fun _ _ => trivial⟩
  rcases List.mem_append.mp he with he | he
  · exact hnoted e he
  · exact List.mem_singleton.mp he ▸ hd

theorem consult {x : Except AlgebraError α} (hx : ∀ a, x = .ok a → post a) :
    Stays bound (consult fun _ => x) post := by
  intro noted hnoted
  unfold Steps.consult
  cases x with
  | error e => exact ⟨hnoted, nofun⟩
  | ok a => exact ⟨hnoted, fun b hb => hx b hb⟩

end Stays

omit [Add A] in
/-- A lift to no more qubits than the bound is for. -/
theorem stays_redimension {k : Nat} (operator : SquareMatrix A) {positions : List Nat}
    (hk : positions.length ≤ k) : Stays (2 ^ k) (redimension operator positions)
      (·.dim = 2 ^ positions.length) := by
  have hfull : 2 ^ positions.length ≤ 2 ^ k := Nat.pow_le_pow_right (by decide) hk
  unfold redimension
  refine (Stays.note hfull).bind fun _ _ => ?_
  refine (Stays.consult fun lifted h => (of_redimension_ok h).2).bind fun lifted hlifted => ?_
  refine (Stays.note ((Nat.div_le_self _ _).trans hfull)).bind fun _ _ => ?_
  refine (Stays.note ((Nat.div_mul_le_self _ _).trans hfull)).bind fun _ _ => ?_
  refine (Stays.note (hlifted ▸ hfull)).bind fun _ _ => ?_
  exact Stays.pure hlifted

mutual

theorem stays_resolve : ∀ (gate : Gate A) {j k : Nat}, gate.Fits j → gate.Spread → j ≤ k →
    Stays (2 ^ k) (resolve gate) (·.dim = 2 ^ j)
  | .operator matrix, j, k, hfits, _, hj => by
    rw [Gate.Fits] at hfits
    rw [resolve]
    refine (Stays.note ?_).bind fun _ _ => Stays.pure hfits
    exact hfits ▸ Nat.pow_le_pow_right (by decide) hj
  | .composite qubits circuit, j, k, hfits, hspread, hj => by
    rw [Gate.Fits] at hfits
    rw [Gate.Spread] at hspread
    rw [resolve]
    obtain ⟨rfl, hfits⟩ := hfits
    refine (Stays.note (Nat.pow_le_pow_right (by decide) hj)).bind fun _ _ => ?_
    have hdim : ∀ start : SquareMatrix A, SquareMatrix.identityOn qubits = .ok start →
        start.dim = 2 ^ qubits := by
      intro start h
      rw [(identityOn_eq_ok.mp h).2]
      rfl
    refine (Stays.consult hdim).bind fun start hstart => ?_
    exact stays_resolveAfter circuit hfits hspread hj hstart

theorem stays_resolveAfter : ∀ (circuit : Circuit A) {n k : Nat} {before : SquareMatrix A},
    circuit.Fits → circuit.Spread n → n ≤ k → before.dim = 2 ^ n →
    Stays (2 ^ k) (resolveAfter n before circuit) (·.dim = 2 ^ n)
  | .done, n, k, before, _, _, _, hb => by
    rw [resolveAfter]
    exact Stays.pure hb
  | .step gate targets rest, n, k, before, hfits, hspread, hn, hb => by
    rw [Circuit.Fits] at hfits
    rw [Circuit.Spread] at hspread
    obtain ⟨hgate, hd, hlt, hrest⟩ := hspread
    -- what is inside the step is bounded by its targets, and these by the circuit
    have hwidth : targets.length ≤ k := (length_le_of_nodup hd hlt).trans hn
    rw [resolveAfter]
    refine (stays_resolve gate hfits.1 hgate hwidth).bind fun operator _ => ?_
    have hplacement : ∀ positions, placement n targets operator = .ok positions →
        positions.length = n := by
      intro positions h
      rw [(of_placement_ok h).2.2]
      exact length_append_others hd hlt
    refine (Stays.consult hplacement).bind fun positions hlength => ?_
    refine (stays_redimension operator (hlength ▸ hn)).bind fun lifted hlifted => ?_
    rw [hlength] at hlifted
    have hmul : ∀ after, lifted.mul before = .ok after → after.dim = 2 ^ n :=
      fun after h => (of_mul_ok h).2.trans hlifted
    refine (Stays.consult hmul).bind fun after hafter => ?_
    refine (Stays.note (hafter ▸ Nat.pow_le_pow_right (by decide) hn)).bind fun _ _ => ?_
    exact stays_resolveAfter rest hfits.2 hrest hn hafter

end

end Building

/-- **What is built for a spread gate** is no larger than its operator. -/
theorem Gate.dimensions_le {A : Type} [Zero A] [One A] [Add A] [Mul A] [BEq A] {gate : Gate A}
    {k : Nat} (hfits : gate.Fits k) (hspread : gate.Spread) : ∀ d ∈ gate.dimensions, d ≤ 2 ^ k := by
  obtain ⟨hleft, -⟩ := Building.stays_resolve gate hfits hspread le_rfl []
    fun d hd => absurd hd List.not_mem_nil
  intro d hd
  refine hleft d ?_
  unfold Gate.dimensions at hd
  cases hresolve : Building.resolve gate [] with
  | ok operator noted =>
    rw [hresolve] at hd
    exact hd
  | error e noted =>
    rw [hresolve] at hd
    exact hd

/-! ## The applications of a run -/

section Applications

variable {R : Type} [Scalar R]

/-- An application of a statement, and the machine that those before it have left. -/
def Executor.Applies (x : Executor R) (action : Action) (m : Machine R) (a : Applied R) : Prop :=
  ∃ c before later, x.Executes action (.call c) ∧
    x.machine.applications c = .ok (before ++ a :: later) ∧
    x.machine.applyEach x.gates before = .ok m

/-- An application in a program that is well formed passes what its gate takes, to qubits of a
machine that has as many as before the statement. -/
theorem Executor.Tracks.takes_of_applies {p : Program} {before rest : List Statement}
    {x : Executor R} (h : x.Tracks before) (hp : p.WellFormed) {s : Statement}
    (hsplit : p.statements = before ++ s :: rest) {m : Machine R} {a : Applied R}
    (happlies : x.Applies s.action m a) :
    (globalEnv p.statements).Takes a.gate a.parameters.length a.bits.length ∧
      (∀ b ∈ a.bits, b < m.qubits) ∧ m.qubits = x.machine.qubits := by
  obtain ⟨c, first, later, hexecutes, hcalls, hfirst⟩ := happlies
  have hlegal : (globalEnv p.statements).LegalCall c :=
    Action.legal_operation (hp.legal s (mem_statements hsplit)) hexecutes.operation?
  have hnamed : False → x.machine.ResolvesCall x.gates c := False.elim
  have hends : Ends (x.machine.applications c) _ (·.fault.Remains False fun _ => True) :=
    Machine.ends_applications h.laid (h.agrees hp hsplit) (global_globalEnv p.statements) hlegal
      hnamed
  rw [hcalls] at hends
  obtain ⟨hgate, hparameters, hbits, hlt⟩ := hends a (List.mem_append_right _ List.mem_cons_self)
  have hqubits : m.qubits = x.machine.qubits := by
    rw [Machine.applyEach_vector hfirst, Machine.qubits, Machine.qubits]
  rw [hgate, hparameters, hbits, hqubits]
  exact ⟨hlegal.1, hlt, rfl⟩

end Applications

/-- **What resolving a gate builds**, for every application in the run of an accepted program. If no
call in the bodies that the gate leads to names an operand twice, the circuits inside it are no
wider than the application, and no matrix that is built is larger than the application's operator.
Otherwise nothing bounds them. As long as none is too wide for an address space, the gate can be
resolved exactly when no call names an operand twice, and fails for a permutation when one does. -/
theorem Program.resolution_bounded {R : Type} [Scalar R] {p : Program} {t : SymbolTable}
    (hcheck : p.check = .ok t) {maxQubits : Nat} {draws : Nat → R} {before rest : List Statement}
    {s : Statement} (hsplit : p.statements = before ++ s :: rest) {x : Executor R}
    (hrun : (Executor.initial maxQubits draws).run before = ⟨x, none⟩) {m : Machine R}
    {a : Applied R} (happlies : x.Applies s.action m a) {gate : Gate (Amplitude R)}
    (hgate : x.gates.instantiate a.gate a.parameters = .ok gate) :
    m.qubits ≤ min maxQubits StateVector.maxQubits ∧
      (a.bits.Nodup → a.bits.length ≤ m.qubits) ∧
      ((∀ q ∈ gate.widths, q ≤ SquareMatrix.maxQubits) →
        ((∃ operator, gate.resolve = .ok operator) ↔ x.gates.Apart a.gate) ∧
          (¬x.gates.Apart a.gate →
            ∃ fault, gate.resolve = .error (.invalidPermutation fault))) ∧
      (x.gates.Apart a.gate →
        (∀ q ∈ gate.widths, q ≤ a.bits.length) ∧
          ∀ d ∈ gate.dimensions, d ≤ 2 ^ a.bits.length) := by
  have hp := wellFormed_of_check hcheck
  have hdistinct := hp.distinct
  rw [hsplit, declaredNames_append] at hdistinct
  have htracks : x.Tracks before :=
    Executor.tracks_of_run (Executor.tracks_initial maxQubits draws)
      (List.nodup_append'.mp hdistinct).1 hrun
  have hreached : Executor.Reached maxQubits draws x := by
    have hinitial : Executor.Reached maxQubits draws (.initial maxQubits draws) := .initial
    have hlast := hinitial.run before
    rwa [hrun] at hlast
  obtain ⟨htakes, hlt, hsame⟩ := htracks.takes_of_applies hp hsplit happlies
  have hqubits : m.qubits ≤ min maxQubits StateVector.maxQubits := by
    rw [hsame, ← hreached.limit]
    exact htracks.laid.qubits_le
  -- the names in bodies need not resolve: that the gate was instantiated is a hypothesis
  have hfits : gate.Fits a.bits.length := by
    have hends : Ends (x.gates.instantiateWithin [] a.gate a.parameters) (·.Fits a.bits.length)
        (·.fault.Remains False fun _ => True) :=
      GateTable.ends_instantiateWithin (htracks.gates_agree hp hsplit) htakes False.elim
    rwa [show x.gates.instantiateWithin [] a.gate a.parameters = .ok gate from hgate] at hends
  have hspread : gate.Spread ↔ x.gates.Apart a.gate := GateTable.spread_iff hgate
  refine ⟨hqubits, fun hd => length_le_of_nodup hd hlt, fun hwidths => ?_, fun hapart => ?_⟩
  · have hresolves : (∃ operator, gate.resolve = .ok operator) ↔ x.gates.Apart a.gate := by
      rw [Gate.exists_resolve_iff hfits, hspread, and_iff_left hwidths]
    refine ⟨hresolves, fun hapart => ?_⟩
    cases hfailed : gate.resolve with
    | ok operator => exact absurd (hresolves.mp ⟨operator, hfailed⟩) hapart
    | error e =>
      rcases (gate.ends_resolve hfits).error_of_eq hfailed with ⟨fault, rfl⟩ | ⟨q, hq, hwide, -⟩
      · exact ⟨fault, rfl⟩
      · exact absurd (hwidths q hq) (Nat.not_le.mpr hwide)
  · have hinside := hspread.mpr hapart
    exact ⟨gate.widths_le hfits hinside le_rfl, Gate.dimensions_le hfits hinside⟩

/-! ## A gate inside a gate -/

/-- Places in the programs below. -/
def nestedPos (line column : Nat) : SourcePos := ⟨"nested.qasm", line, column⟩

/-- A register with a qubit for each argument, a gate of two qubits, and one that passes these
names to it. -/
def nestedDeclarations (arguments passed : List String) : List Statement :=
  [⟨.register .quantum "q" arguments.length, nestedPos 2 1⟩,
    ⟨.gate ⟨"w", none, ["a", "b"]⟩
      [⟨.call ⟨.controlledNot, none, [⟨"a", none, nestedPos 3 18⟩, ⟨"b", none, nestedPos 3 21⟩]⟩,
        nestedPos 3 15⟩], nestedPos 3 1⟩,
    ⟨.gate ⟨"g", none, arguments⟩
      [⟨.call ⟨.named "w", none, passed.mapIdx fun i name =>
          ⟨name, none, nestedPos 4 (11 + 3 * arguments.length + 3 * i)⟩⟩,
        nestedPos 4 (9 + 3 * arguments.length)⟩], nestedPos 4 1⟩]

/-- The call of the outer gate. -/
def nestedCall (arguments : List String) : GateCall :=
  ⟨.named "g", none, arguments.mapIdx fun i _ => ⟨"q", some i, nestedPos 5 (3 + 6 * i)⟩⟩

/-- A gate inside a gate, here with arguments `a, b` that are passed on as `a, b`:
```
qreg q[2];
gate w a, b { CX a, b; }
gate g a, b { w a, b; }
g q[0], q[1];
```
-/
def nested (arguments passed : List String) : Program where
  file := "nested.qasm"
  version := ⟨20, -1⟩
  includes := []
  statements := nestedDeclarations arguments passed ++
    [⟨.operation (.call (nestedCall arguments)), nestedPos 5 1⟩]

/-- The executor that the declarations leave. -/
def nestedExecutor (arguments passed : List String) : Executor Float :=
  ((Executor.initial 24 (Random.draw 0)).run (nestedDeclarations arguments passed)).state

/-- With two arguments that are passed on, nothing is built that is wider than the call. -/
theorem resolution_bounded_nested :
    (∃ t, (nested ["a", "b"] ["a", "b"]).check = .ok t) ∧
      (Executor.initial 24 (Random.draw 0)).run (nestedDeclarations ["a", "b"] ["a", "b"]) =
        ⟨nestedExecutor ["a", "b"] ["a", "b"], none⟩ ∧
      (nestedExecutor ["a", "b"] ["a", "b"]).Applies (.operation (.call (nestedCall ["a", "b"])))
        (nestedExecutor ["a", "b"] ["a", "b"]).machine ⟨.named "g", [], [0, 1]⟩ ∧
      (nestedExecutor ["a", "b"] ["a", "b"]).gates.Apart (.named "g") ∧
      ∃ gate : Gate (Amplitude Float),
        (nestedExecutor ["a", "b"] ["a", "b"]).gates.instantiate (.named "g") [] = .ok gate ∧
        gate.widths = [2, 2] ∧ (∀ q ∈ gate.widths, q ≤ 2) ∧ ∀ d ∈ gate.dimensions, d ≤ 4 := by
  have haccepted : (nested ["a", "b"] ["a", "b"]).check.isOk = true := by decide +kernel
  obtain ⟨t, hcheck⟩ := exists_eq_ok haccepted
  have hrun : (Executor.initial 24 (Random.draw 0)).run
      (nestedDeclarations ["a", "b"] ["a", "b"]) = ⟨nestedExecutor ["a", "b"] ["a", "b"], none⟩ :=
    rfl
  have happlies : (nestedExecutor ["a", "b"] ["a", "b"]).Applies
      (.operation (.call (nestedCall ["a", "b"])))
      (nestedExecutor ["a", "b"] ["a", "b"]).machine ⟨.named "g", [], [0, 1]⟩ :=
    ⟨nestedCall ["a", "b"], [], [], rfl, rfl, rfl⟩
  have hresolves : (match (nestedExecutor ["a", "b"] ["a", "b"]).gates.instantiate (.named "g")
      ([] : List Float) with
      | .ok gate => gate.resolve.isOk && decide (gate.widths = [2, 2])
      | .error _ => false) = true := by decide +kernel
  cases hgate : (nestedExecutor ["a", "b"] ["a", "b"]).gates.instantiate (.named "g")
      ([] : List Float) with
  | error e =>
    rw [hgate] at hresolves
    cases hresolves
  | ok gate =>
    rw [hgate, Bool.and_eq_true, decide_eq_true_eq] at hresolves
    obtain ⟨-, -, hresolved, hbounded⟩ :=
      Program.resolution_bounded hcheck rfl hrun happlies hgate
    have hwidths : ∀ q ∈ gate.widths, q ≤ SquareMatrix.maxQubits := by
      rw [hresolves.2]
      decide
    have hapart := (hresolved hwidths).1.mp (exists_eq_ok hresolves.1)
    exact ⟨⟨t, hcheck⟩, hrun, happlies, hapart, gate, rfl, hresolves.2, hbounded hapart⟩

/-- **The checker lets through what is not apart.** With one argument that is passed on twice the
program is accepted, and the call is one application to one qubit, to which nothing objects. But
inside its gate is a circuit on two qubits, whose matrices of dimension 4 are built before the run
fails because the circuit cannot be placed. -/
theorem exceeds_nested :
    (∃ t, (nested ["a"] ["a", "a"]).check = .ok t) ∧
      (Executor.initial 24 (Random.draw 0)).run (nestedDeclarations ["a"] ["a", "a"]) =
        ⟨nestedExecutor ["a"] ["a", "a"], none⟩ ∧
      (nestedExecutor ["a"] ["a", "a"]).Applies (.operation (.call (nestedCall ["a"])))
        (nestedExecutor ["a"] ["a", "a"]).machine ⟨.named "g", [], [0]⟩ ∧
      Machine.checkTargets (nestedExecutor ["a"] ["a", "a"]).machine.qubits [] [0] = .ok () ∧
      (∃ gate : Gate (Amplitude Float),
        (nestedExecutor ["a"] ["a", "a"]).gates.instantiate (.named "g") [] = .ok gate ∧
        gate.widths = [1, 2] ∧ gate.dimensions = [2, 4, 4, 4, 1, 4, 4, 4, 4]) ∧
      ∃ e, (nested ["a"] ["a", "a"]).execute 24 (Random.draw 0) = .error e ∧
        e.fault = .algebra (.invalidPermutation (.notPermutation [0, 0] 2)) := by
  have haccepted : (nested ["a"] ["a", "a"]).check.isOk = true := by decide +kernel
  have hbuilt : (match (nestedExecutor ["a"] ["a", "a"]).gates.instantiate (.named "g")
      ([] : List Float) with
      | .ok gate => decide
        (gate.widths = [1, 2] ∧ gate.dimensions = [2, 4, 4, 4, 1, 4, 4, 4, 4])
      | .error _ => false) = true := by decide +kernel
  refine ⟨exists_eq_ok haccepted, rfl, ⟨nestedCall ["a"], [], [], rfl, rfl, rfl⟩, rfl, ?_, ?_⟩
  · cases hgate : (nestedExecutor ["a"] ["a", "a"]).gates.instantiate (.named "g")
        ([] : List Float) with
    | error e =>
      rw [hgate] at hbuilt
      cases hbuilt
    | ok gate =>
      rw [hgate, decide_eq_true_eq] at hbuilt
      exact ⟨gate, rfl, hbuilt⟩
  · exact exists_eq_error (by decide +kernel)

end OpenQasm
