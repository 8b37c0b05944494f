import OpenQasm.Proofs.Applying
import OpenQasm.Proofs.Composition
import OpenQasm.Proofs.Exact
import OpenQasm.Proofs.Instantiation
import OpenQasm.Proofs.Layout

/-!
# A gate call is its inlined body

Inlining replaces the applications of defined gates by the calls in their bodies, formal parameters
by values and formal arguments by bits, until only `U` and `CX` are left. `Inlines` is that
rewriting, written without gates, operators or local qubits.

* `Inlines.unique`: there is at most one result.
* `Denotes`: the gate that a name is instantiated to has as its leaves the operators of the inlined
  applications. It holds of every instantiated gate (`denotes_of_instantiateWithin`), by the
  recursion of `instantiateWithin` with that of `instantiateBody` inside.
* `applyEach_inlined`: applications that succeed have an inlining, and executing it is the same.
* **`Gate.means_inlined`**: a gate tree is its leaves, and a call is its inlining.
-/

namespace OpenQasm

open Kernel BitIndex

/-- The application of `U` or `CX`. -/
def Applied.IsPrimitive {R : Type} (a : Applied R) : Prop :=
  a.gate = .rotation ∨ a.gate = .controlledNot

namespace GateTable

variable {R : Type} [Scalar R]

omit [Scalar R] in
/-- The bit that an operand in a body stands for. -/
def actualBit (actuals : List (String × Nat)) (v : Operand) : Option Nat :=
  if v.isIndexed then none else actuals.lookup v.name

/-- The calls of a body, with values for its formal parameters and bits for its formal arguments.
Barriers are dropped. -/
def substituted (bindings : Bindings R) (actuals : List (String × Nat)) :
    List BodyStatement → Option (List (Applied R))
  | [] => some []
  | ⟨.barrier _, _⟩ :: rest => substituted bindings actuals rest
  | ⟨.call c, _⟩ :: rest => do
    let parameters ← (values bindings c.passed).toOption
    let bits ← c.operands.mapM (actualBit actuals)
    let calls ← substituted bindings actuals rest
    return ⟨c.gate, parameters, bits⟩ :: calls

/-- `Inlines table calls ops`: with the defined gates of `table` replaced by their bodies, first to
last and at any depth, the applications `calls` are the primitive applications `ops`. -/
inductive Inlines (table : GateTable) : List (Applied R) → List (Applied R) → Prop
  | done : Inlines table [] []
  | primitive {call : Applied R} {calls ops : List (Applied R)} :
      call.IsPrimitive → Inlines table calls ops → Inlines table (call :: calls) (call :: ops)
  | defined {name : String} {parameters : List R} {bits : List Nat} {signature : Signature}
      {body : List BodyStatement} {inner calls ops : List (Applied R)} :
      table.lookup name = some (.defined signature body) →
      signature.formals.length = parameters.length → signature.arguments.length = bits.length →
      substituted (.ofLists signature.formals parameters) (signature.arguments.zip bits) body =
        some inner →
      Inlines table (inner ++ calls) ops →
      Inlines table (⟨.named name, parameters, bits⟩ :: calls) ops

namespace Inlines

variable {table : GateTable} {calls ops : List (Applied R)}

/-- Only `U` and `CX` are left. -/
theorem isPrimitive (h : Inlines table calls ops) : ∀ a ∈ ops, a.IsPrimitive := by
  induction h with
  | done => exact fun a ha => absurd ha List.not_mem_nil
  | primitive hcall _ ih => exact List.forall_mem_cons.mpr ⟨hcall, ih⟩
  | defined _ _ _ _ _ ih => exact ih

/-- There is at most one way to inline. -/
theorem unique (h : Inlines table calls ops) {other : List (Applied R)}
    (ho : Inlines table calls other) : other = ops := by
  induction h generalizing other with
  | done =>
    cases ho
    rfl
  | primitive hcall _ ih =>
    cases ho with
    | primitive _ ho => rw [ih ho]
    | defined => rcases hcall with hcall | hcall <;> cases hcall
  | defined hfound _ _ hinner _ ih =>
    cases ho with
    | primitive hcall _ => rcases hcall with hcall | hcall <;> cases hcall
    | defined hfound' _ _ hinner' ho =>
      rw [hfound] at hfound'
      cases hfound'
      rw [hinner] at hinner'
      cases hinner'
      exact ih ho

end Inlines

/-! ## Formal arguments and bits -/

omit [Scalar R] in
/-- Looking up a formal argument among the bits is looking for its place among the arguments. -/
theorem lookup_zip : ∀ {arguments : List String} {bits : List Nat} {name : String} {j : Nat},
    arguments.length = bits.length → arguments.findIdx? (· == name) = some j →
    (arguments.zip bits).lookup name = some (bits.getD j 0)
  | [], _, _, _, _, h => by cases h
  | a :: arguments, [], _, _, hlength, _ => by cases hlength
  | a :: arguments, b :: bits, name, j, hlength, h => by
    rw [List.zip_cons_cons, List.lookup_cons]
    rw [List.findIdx?_cons] at h
    by_cases ha : a = name
    · subst ha
      rw [if_pos (beq_self_eq_true a)] at h
      obtain rfl := Option.some.inj h
      simp
    · rw [if_neg (by simpa using ha)] at h
      obtain ⟨k, hk, rfl⟩ := Option.map_eq_some_iff.mp h
      have hne : (name == a) = false := by simpa using Ne.symm ha
      simp only [hne]
      exact lookup_zip (Nat.succ.inj hlength) hk

omit [Scalar R] in
/-- The operands of a call inside a body, located outside of it. -/
theorem actualBits_eq {arguments : List String} {bits : List Nat} {operands : List Operand}
    {targets : List Nat} (hlength : arguments.length = bits.length)
    (h : operands.mapM (localQubit arguments) = .ok targets) :
    operands.mapM (actualBit (arguments.zip bits)) = some (locate bits targets) := by
  rw [mapM_eq_ok] at h
  induction h with
  | nil => rfl
  | cons hv _ ih =>
    obtain ⟨hindex, hj⟩ := localQubit_eq_ok.mp hv
    rw [List.mapM_cons, ih, actualBit, hindex, lookup_zip hlength hj]
    rfl

/-! ## The leaves of an instantiated gate -/

/-- A primitive application and the operator that it applies. -/
def RunsAs (table : GateTable) (a : Applied R)
    (leaf : SquareMatrix (Amplitude R) × List Nat) : Prop :=
  table.instantiate a.gate a.parameters = .ok (.operator leaf.1) ∧ a.bits = leaf.2

end GateTable

namespace GateTable

variable {R : Type} [ExactScalar R] {table : GateTable}

/-- `instantiated` stands for the inlining of `gate`: wherever it is applied, its leaves are the
operators of the primitive applications that come out. -/
def Denotes (table : GateTable) (gate : GateName) (parameters : List R)
    (instantiated : Gate (Amplitude R)) : Prop :=
  ∀ {n : Nat} {bits : List Nat} {operator : SquareMatrix (Amplitude R)},
    instantiated.resolve = .ok operator → Placed n operator bits →
    ∃ ops, List.Forall₂ (RunsAs table) ops (instantiated.leaves bits) ∧
      ∀ calls rest, Inlines table calls rest →
        Inlines table (⟨gate, parameters, bits⟩ :: calls) (ops ++ rest)

/-- A primitive operator is its own inlining. -/
theorem denotes_primitive {gate : GateName} {parameters : List R}
    {matrix : SquareMatrix (Amplitude R)} (hgate : gate = .rotation ∨ gate = .controlledNot)
    (h : table.instantiate gate parameters = .ok (.operator matrix)) :
    Denotes table gate parameters (.operator matrix) := by
  intro n bits operator _ _
  refine ⟨[⟨gate, parameters, bits⟩], ?_, fun calls rest hrest => .primitive hgate hrest⟩
  rw [Gate.leaves]
  exact .cons ⟨h, rfl⟩ .nil

/-- The leaves of a body's circuit, when the gates of its calls stand for their inlinings. -/
theorem inlines_of_instantiateBody
    {instantiateCall : GateName → List R → Except RunError (Gate (Amplitude R))}
    (hcalls : ∀ gate parameters instantiated, instantiateCall gate parameters = .ok instantiated →
      Denotes table gate parameters instantiated)
    {arguments : List String} {bindings : Bindings R} {bits : List Nat} {n : Nat}
    (hlength : arguments.length = bits.length) (hd : bits.Nodup) (hn : ∀ p ∈ bits, p < n) :
    ∀ {body : List BodyStatement} {circuit : Circuit (Amplitude R)}
      {before operator : SquareMatrix (Amplitude R)},
      instantiateBody instantiateCall arguments bindings body = .ok circuit →
      Gate.resolveAfter bits.length before circuit = .ok operator →
      ∃ inner ops, substituted bindings (arguments.zip bits) body = some inner ∧
        List.Forall₂ (RunsAs table) ops (circuit.leaves bits) ∧
        ∀ calls rest, Inlines table calls rest → Inlines table (inner ++ calls) (ops ++ rest)
  | [], _, _, _, h, _ => by
    obtain rfl := (Except.ok.inj h).symm
    exact ⟨[], [], rfl, .nil, fun _ _ hrest => hrest⟩
  | ⟨.barrier _, _⟩ :: rest, _, _, _, h, hr => by
    rw [instantiateBody] at h
    obtain ⟨inner, ops, hinner, hops⟩ :=
      inlines_of_instantiateBody hcalls hlength hd hn h hr
    exact ⟨inner, ops, by rw [substituted, hinner], hops⟩
  | ⟨.call c, pos⟩ :: rest, circuit, before, operator, h, hr => by
    obtain ⟨parameters, targets, gate, after, hp, ht, hg, hrest, rfl⟩ :=
      instantiateBody_call_eq_ok.mp h
    obtain ⟨lift, next, hgate, hadvance, hr⟩ := Gate.of_resolveAfter_step hr
    obtain ⟨first, hfirst, hinlinesFirst⟩ :=
      hcalls _ _ _ hg hgate ((Gate.of_advance_ok hadvance).1.locate hd hn)
    obtain ⟨inner, ops, hinner, hops, hinlines⟩ :=
      inlines_of_instantiateBody hcalls hlength hd hn hrest hr
    refine ⟨⟨c.gate, parameters, locate bits targets⟩ :: inner, first ++ ops, ?_, ?_, ?_⟩
    · rw [substituted, hp, actualBits_eq hlength ht, hinner]
      rfl
    · rw [Circuit.leaves]
      exact List.rel_append hfirst hops
    · intro calls rest hcalls
      rw [List.cons_append, List.append_assoc]
      exact hinlinesFirst _ _ (hinlines _ _ hcalls)

/-- **Every instantiated gate stands for its inlining.** -/
theorem denotes_of_instantiateWithin {active : List String} {gate : GateName}
    {parameters : List R} {instantiated : Gate (Amplitude R)}
    (h : table.instantiateWithin active gate parameters = .ok instantiated) :
    Denotes table gate parameters instantiated := by
  cases gate with
  | rotation =>
    obtain ⟨theta, phi, lambda, rfl, rfl⟩ := instantiateWithin_rotation_eq_ok.mp h
    exact denotes_primitive (Or.inl rfl)
      (instantiateWithin_rotation_eq_ok.mpr ⟨theta, phi, lambda, rfl, rfl⟩)
  | controlledNot =>
    rw [instantiateWithin_controlledNot] at h
    obtain rfl := (Except.ok.inj h).symm
    exact denotes_primitive (Or.inr rfl) (instantiateWithin_controlledNot ..)
  | named name =>
    obtain ⟨signature, body, circuit, hfound, hnew, hformals, hbody, rfl⟩ :=
      instantiateWithin_named_eq_ok.mp h
    intro n bits operator hr hplaced
    obtain ⟨hbits, hcircuit⟩ := Gate.qubits_of_resolve hr hplaced
    -- the calls of the body are instantiated with one more active name
    have hpending := pending_cons_lt (mem_names hfound) hnew
    obtain ⟨inner, ops, hinner, hops, hinlines⟩ :=
      inlines_of_instantiateBody (fun _ _ _ hg => denotes_of_instantiateWithin hg) hbits.symm
        hplaced.nodup hplaced.lt hbody hcircuit
    refine ⟨ops, by rw [Gate.leaves]; exact hops, fun calls rest hrest => ?_⟩
    exact .defined hfound hformals hbits.symm hinner (hinlines _ _ hrest)
termination_by pending table.names active

end GateTable

/-! ## Executing what is inlined -/

namespace Machine

open GateTable

variable {R : Type} [ExactScalar R] {table : GateTable}

/-- Primitive applications apply their operators. -/
theorem applyEach_eq_applyAll {m : Machine R} {ops : List (Applied R)}
    {leaves : List (SquareMatrix (Amplitude R) × List Nat)}
    (h : List.Forall₂ (RunsAs table) ops leaves)
    (hplaced : ∀ leaf ∈ leaves, Placed m.qubits leaf.1 leaf.2) :
    m.applyEach table ops = .ok { m with vector := ⟨applyAll m.vector.entries leaves⟩ } := by
  induction h generalizing m with
  | nil => rfl
  | @cons a leaf ops leaves ha _ ih =>
    obtain ⟨hhead, hrest⟩ := List.forall_mem_cons.mp hplaced
    obtain ⟨hinstantiate, hbits⟩ := ha
    have hfirst : m.applyNamed table a.gate a.parameters a.bits =
        .ok { m with vector := ⟨applyOnTargets m.vector.entries leaf.1.entries leaf.2⟩ } := by
      rw [hbits]
      exact applyNamed_eq_ok.mpr ⟨_, hinstantiate,
        apply_eq_ok.mpr ⟨hhead.lt, hhead.nodup, leaf.1, rfl, hhead.dim_eq, rfl⟩⟩
    rw [applyEach_cons, hfirst]
    exact ih hrest

/-- An application that succeeds has an inlining, and executing it is the same. -/
theorem applyNamed_inlined {m after : Machine R} {a : Applied R}
    (hsize : m.vector.size = 2 ^ m.qubits)
    (h : m.applyNamed table a.gate a.parameters a.bits = .ok after) :
    ∃ ops, m.applyEach table ops = .ok after ∧
      ∀ calls rest, Inlines table calls rest → Inlines table (a :: calls) (ops ++ rest) := by
  obtain ⟨gate, hinstantiate, happly⟩ := applyNamed_eq_ok.mp h
  obtain ⟨hlt, hd, operator, hr, hdim, rfl⟩ := apply_eq_ok.mp happly
  have hplaced : Placed m.qubits operator a.bits := ⟨hdim, hd, hlt⟩
  obtain ⟨ops, hops, hinlines⟩ := denotes_of_instantiateWithin hinstantiate hr hplaced
  refine ⟨ops, ?_, hinlines⟩
  rw [applyEach_eq_applyAll hops (Gate.leaves_placed gate hr hplaced),
    Gate.applyOnTargets_resolve gate hr hplaced hsize]

/-- **Applications that succeed are their inlining**: it exists, and executing it is the same. -/
theorem applyEach_inlined : ∀ {calls : List (Applied R)} {m after : Machine R},
    m.vector.size = 2 ^ m.qubits → m.applyEach table calls = .ok after →
    ∃ ops, Inlines table calls ops ∧ m.applyEach table ops = .ok after
  | [], _, _, _, h => ⟨[], .done, h⟩
  | a :: calls, m, after, hsize, h => by
    rw [applyEach_cons] at h
    obtain ⟨next, hfirst, hrest⟩ := bind_eq_ok.mp h
    obtain ⟨first, hops, hinlines⟩ := applyNamed_inlined hsize hfirst
    have hnext : next.vector.size = 2 ^ next.qubits := by
      obtain ⟨gate, -, happly⟩ := applyNamed_eq_ok.mp hfirst
      obtain ⟨-, -, operator, -, -, rfl⟩ := apply_eq_ok.mp happly
      exact (size_applyOnTargets ..).trans hsize
    obtain ⟨ops, hcalls, heach⟩ := applyEach_inlined hnext hrest
    refine ⟨first ++ ops, hinlines calls ops hcalls, ?_⟩
    rw [applyEach_append, hops]
    exact heach

end Machine

open GateTable in
/-- **A gate means its inlined body.** A gate tree that resolves is its leaves, one after the other
on the bits they are followed to. So a call that succeeds has exactly one inlining, into `U` and
`CX` alone, and leaves what executing that leaves. The vector of every machine that statements lead
to has the size that this needs. What is said of a tree asks that it resolves: its circuits are on
no more than `SquareMatrix.maxQubits` qubits then, and their dimensions are words. -/
theorem Gate.means_inlined :
    (∀ (A : Type) [CommRing A] [BEq A] [LawfulBEq A] (gate : Gate A) (operator : SquareMatrix A)
        (n : Nat) (vector : Array A) (positions : List Nat),
      gate.resolve = .ok operator → operator.dim = 2 ^ positions.length →
      vector.size = 2 ^ n → positions.Nodup → (∀ p ∈ positions, p < n) →
      applyOnTargets vector operator.entries positions =
        applyAll vector (gate.leaves positions)) ∧
    (∀ (R : Type) [ExactScalar R] (table : GateTable) (m after : Machine R) (c : GateCall),
      m.vector.size = 2 ^ m.qubits → m.call table c = ⟨after, none⟩ →
      ∃ calls ops, m.applications c = .ok calls ∧ Inlines table calls ops ∧
        (∀ other, Inlines table calls other → other = ops) ∧ (∀ a ∈ ops, a.IsPrimitive) ∧
        m.applyEach table ops = .ok after) ∧
    ∀ (R : Type) [ExactScalar R] (maxQubits : Nat) (draws : Nat → R) (x : Executor R),
      Executor.Reached maxQubits draws x → x.machine.vector.size = 2 ^ x.machine.qubits := by
  refine ⟨?_, ?_, ?_⟩
  · intro A _ _ _ gate operator n vector positions hr hdim hv hd hlt
    exact Gate.applyOnTargets_resolve gate hr ⟨hdim, hd, hlt⟩ hv
  · intro R _ table m after c hsize h
    obtain ⟨calls, hcalls, heach⟩ := Machine.call_eq_ok.mp h
    obtain ⟨ops, hinlines, hops⟩ := Machine.applyEach_inlined hsize heach
    exact ⟨calls, ops, hcalls, hinlines, fun other ho => hinlines.unique ho,
      hinlines.isPrimitive, hops⟩
  · intro R _ maxQubits draws x hx
    exact hx.laid.size

/-! ## A call of a defined gate -/

section Flip

open GateTable

/-- Two steps on two qubits: the controlled-not of the first under the second, then the flip of the
first. -/
def flipBack : Gate ℤ :=
  .composite 2
    (.step (.operator ⟨4, #[1, 0, 0, 0,  0, 0, 0, 1,  0, 0, 1, 0,  0, 1, 0, 0], rfl⟩) [1, 0]
      (.step (.operator ⟨2, #[0, 1, 1, 0], rfl⟩) [0] .done))

/-- Where the texts below stand. -/
def flipPos : SourcePos := ⟨"flip.qasm", 1, 1⟩

/-- `gate flip(t) a, b { U(t, 0, 0) a; CX b, a; }` -/
def flipTable : GateTable :=
  [("flip", .defined ⟨"flip", some ["t"], ["a", "b"]⟩
    [⟨.call ⟨.rotation, some [.operand ⟨"t", none, flipPos⟩, .integer 0 flipPos,
        .integer 0 flipPos], [⟨"a", none, flipPos⟩]⟩, flipPos⟩,
      ⟨.call ⟨.controlledNot, none, [⟨"b", none, flipPos⟩, ⟨"a", none, flipPos⟩]⟩, flipPos⟩])]

/-- `flip(pi) q[1], q[0];` -/
def flipCall : GateCall :=
  ⟨.named "flip", some [.pi flipPos], [⟨"q", some 1, flipPos⟩, ⟨"q", some 0, flipPos⟩]⟩

/-- A machine with the qubits `q[0]` and `q[1]`, both `0`. -/
noncomputable def twoQubits : Machine ℝ where
  vector := ⟨#[1, 0, 0, 0]⟩
  quantum := [⟨"q", 0, 2⟩]
  classical := []
  draws _ := 0
  drawn := 0
  limit := 24

theorem instantiate_flip : flipTable.instantiate (.named "flip") [Real.pi] =
    .ok (.composite 2 (.step (.rotation Real.pi (Scalar.ofNat 0) (Scalar.ofNat 0)) [0]
      (.step .controlledNot [1, 0] .done))) := by
  refine instantiateWithin_named_eq_ok.mpr ⟨_, _, _, rfl, List.not_mem_nil, rfl, ?_, rfl⟩
  refine instantiateBody_call_eq_ok.mpr ⟨_, _, _, _, rfl, rfl, ?_, ?_, rfl⟩
  · exact instantiateWithin_rotation_eq_ok.mpr ⟨_, _, _, rfl, rfl⟩
  refine instantiateBody_call_eq_ok.mpr ⟨_, _, _, _, rfl, rfl, ?_, ?_, rfl⟩
  · exact instantiateWithin_controlledNot ..
  · rfl

/-- The call succeeds: each step of its body is well placed. -/
theorem exists_call_flip : ∃ after, twoQubits.call flipTable flipCall = ⟨after, none⟩ := by
  have hfirst : Placed 2 (Gate.rotationMatrix Real.pi (Scalar.ofNat 0) (Scalar.ofNat 0)) [0] :=
    ⟨rfl, by decide, by decide⟩
  have hsecond : Placed 2 (⟨4, #[1, 0, 0, 0,  0, 0, 0, 1,  0, 0, 1, 0,  0, 1, 0, 0], rfl⟩ :
      SquareMatrix (Amplitude ℝ)) [1, 0] := ⟨rfl, by decide, by decide⟩
  have hidentity : (SquareMatrix.identity 4 : SquareMatrix (Amplitude ℝ)).dim = 2 ^ 2 := rfl
  obtain ⟨next, hnext⟩ := Gate.exists_advance hfirst hidentity
  obtain ⟨last, hlast⟩ := Gate.exists_advance hsecond (Gate.of_advance_ok hnext).2.2
  have hresolve : (Gate.composite 2 (.step (.rotation Real.pi (Scalar.ofNat 0) (Scalar.ofNat 0)) [0]
      (.step .controlledNot [1, 0] .done))).resolve = .ok last := by
    refine Gate.resolve_composite_eq_ok.mpr ⟨by decide, ?_⟩
    rw [Gate.resolveAfter, Gate.rotation, Gate.resolve]
    refine bind_eq_ok.mpr ⟨_, rfl, bind_eq_ok.mpr ⟨next, hnext, ?_⟩⟩
    rw [Gate.resolveAfter, Gate.controlledNot, Gate.resolve]
    refine bind_eq_ok.mpr ⟨_, rfl, bind_eq_ok.mpr ⟨last, hlast, ?_⟩⟩
    rw [Gate.resolveAfter]
  have happlications : twoQubits.applications flipCall =
      .ok [⟨.named "flip", [Real.pi], [1, 0]⟩] := rfl
  have hnamed : ∃ after,
      twoQubits.applyNamed flipTable (.named "flip") [Real.pi] [1, 0] = .ok after := by
    simp only [Machine.applyNamed_eq_ok, Machine.apply_eq_ok]
    exact ⟨_, _, instantiate_flip, by decide, by decide, last, hresolve,
      (Gate.of_advance_ok hlast).2.2, rfl⟩
  obtain ⟨after, hafter⟩ := hnamed
  refine ⟨after, Machine.call_eq_ok.mpr ⟨_, happlications, ?_⟩⟩
  rw [Machine.applyEach_cons, hafter]
  rfl

/-- Both parts at work: a tree over the integers, and a call over the reals. -/
theorem means_inlined_flip :
    (∃ operator, flipBack.resolve = .ok operator ∧
      applyOnTargets #[1, 2, 3, 4, 5, 6, 7, 8] operator.entries [2, 0] =
        applyAll #[1, 2, 3, 4, 5, 6, 7, 8] (flipBack.leaves [2, 0])) ∧
    ∃ after calls ops, twoQubits.call flipTable flipCall = ⟨after, none⟩ ∧
      twoQubits.applications flipCall = .ok calls ∧ Inlines flipTable calls ops ∧
      (∀ a ∈ ops, a.IsPrimitive) ∧ twoQubits.applyEach flipTable ops = .ok after := by
  obtain ⟨htree, hcall, -⟩ := Gate.means_inlined
  constructor
  · have hresolves : flipBack.resolve.isOk = true := by decide +kernel
    obtain ⟨operator, hr⟩ := exists_eq_ok hresolves
    obtain ⟨-, hafter⟩ := Gate.resolve_composite_eq_ok.mp hr
    have hdim : operator.dim = 2 ^ 2 := Circuit.dim_of_resolveAfter _ rfl hafter
    refine ⟨operator, hr, htree ℤ flipBack operator 3 _ [2, 0] hr hdim rfl ?_ ?_⟩
    · decide
    · decide
  · obtain ⟨after, hafter⟩ := exists_call_flip
    obtain ⟨calls, ops, hcalls, hinlines, -, hprimitive, hops⟩ :=
      hcall ℝ flipTable twoQubits after flipCall rfl hafter
    exact ⟨after, calls, ops, hafter, hcalls, hinlines, hprimitive, hops⟩

end Flip

end OpenQasm
