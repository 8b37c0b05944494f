import OpenQasm.Proofs.Agreement
import OpenQasm.Proofs.Success

/-!
# Resolving names at run time

The checker looks a name up through the scopes: the formals of a gate, then everything that the
program declares. The runtime looks an operand in the body of a gate up among its arguments alone,
and an operand of an expression among the parameters that have values. The two agree on a statement
whose names are `Resolvable`: outside of gates no expression has an operand, and the body of a gate
that is called, directly or not, uses its own formals without an index.

* `Action.Uses`, `Program.DeclaredBeforeUse`: what a statement uses, itself or through the bodies of
  the gates that it calls.
* **`execute_name_of_check`**: an accepted program whose names are declared before use and are
  resolvable never fails for a name, and one that succeeds has resolvable names in all that it
  executed.
-/

namespace OpenQasm

/-- The names of the operands of a call and of those in its parameters. -/
def GateCall.mentioned (c : GateCall) : List String :=
  c.operands.map (·.name) ++ (c.passed.flatMap Expr.variables).map (·.name)

namespace Operation

/-- The names that an operation writes down, that of its gate apart. -/
def mentioned : Operation → List String
  | .call c => c.mentioned
  | .measure source target => [source.name, target.name]
  | .reset target => [target.name]

/-- The gate that an operation calls. -/
def gate? : Operation → Option GateName
  | .call c => some c.gate
  | .measure .. | .reset _ => none

/-- The parameters that are passed have no operands, and all names that the gate leads to can be
resolved. -/
def Resolvable (table : GateTable) : Operation → Prop
  | .call c => (∀ e ∈ c.passed, e.variables = []) ∧ table.Resolves c.gate
  | .measure .. | .reset _ => True

end Operation

namespace Action

/-- The names that a statement writes down, those of gates apart. A declaration uses none. -/
def mentioned : Action → List String
  | .register .. | .gate .. | .opaqueGate _ => []
  | .operation o => o.mentioned
  | .barrier operands => operands.map (·.name)
  | .conditional bits value o _ =>
    bits.name :: value.variables.map (·.name) ++ o.mentioned

/-- The operation of a statement, under a condition or not. -/
def operation? : Action → Option Operation
  | .operation o | .conditional _ _ o _ => some o
  | .register .. | .gate .. | .opaqueGate _ | .barrier _ => none

/-- The value that a statement compares a register with. -/
def condition? : Action → Option Expr
  | .conditional _ value _ _ => some value
  | .operation _ | .register .. | .gate .. | .opaqueGate _ | .barrier _ => none

/-- The gate that a statement calls. -/
def gate? (a : Action) : Option GateName := a.operation?.bind Operation.gate?

theorem mem_mentioned {a : Action} {o : Operation} (h : a.operation? = some o) {name : String}
    (hname : name ∈ o.mentioned) : name ∈ a.mentioned := by
  cases a with
  | operation other =>
    cases h
    exact hname
  | conditional bits value other pos =>
    cases h
    exact List.mem_append_right _ hname
  | _ => cases h

/-- The operation of a legal statement is legal. -/
theorem legal_operation {env : Env} {a : Action} {o : Operation} (h : env.LegalAction a)
    (ho : a.operation? = some o) : env.LegalOperation o := by
  cases a with
  | operation other =>
    cases ho
    exact h
  | conditional bits value other pos =>
    cases ho
    exact h.2.2
  | _ => cases ho

/-- A statement uses a name: it mentions it, it calls a gate of that name, also through the bodies
of others, or it calls a gate whose body mentions it and does not bind it. -/
inductive Uses (table : GateTable) (a : Action) : String → Prop
  | mentioned {name : String} : name ∈ a.mentioned → Uses table a name
  | gate {called : GateName} {name : String} : a.gate? = some called →
      Relation.ReflTransGen table.Calls called (.named name) → Uses table a name
  | body {called : GateName} {inner name : String} {s : Signature} {body : List BodyStatement}
      {c : GateCall} {pos : SourcePos} : a.gate? = some called →
      Relation.ReflTransGen table.Calls called (.named inner) →
      table.lookup inner = some (.defined s body) → ⟨.call c, pos⟩ ∈ body →
      name ∈ c.mentioned → name ∉ s.formals ++ s.arguments → Uses table a name

/-- The names of a statement can be resolved, those of its condition and of its operation. -/
def Resolvable (table : GateTable) (a : Action) : Prop :=
  (∀ value, a.condition? = some value → value.variables = []) ∧
    ∀ o, a.operation? = some o → o.Resolvable table

end Action

/-- The names that a statement looks up in a state can be resolved: those of its condition and, if
it holds, of its operation. -/
def Executor.Resolvable {R : Type} [Scalar R] (x : Executor R) (table : GateTable) (a : Action) :
    Prop :=
  (∀ value, a.condition? = some value → value.variables = []) ∧
    ∀ o, x.Executes a o → o.Resolvable table

/-- Every name is declared before the first statement that uses it. -/
def Program.DeclaredBeforeUse (p : Program) : Prop :=
  ∀ before s rest, p.statements = before ++ s :: rest →
    ∀ name, s.action.Uses (definitions p.statements) name → name ∈ declaredNames before

/-! ## Tables that know more gates -/

namespace GateTable

variable {table other : GateTable}

/-- What a gate leads to, in a table that knows more gates. -/
theorem Calls.mono (hsub : ∀ name d, table.lookup name = some d → other.lookup name = some d)
    {gate inner : GateName} (h : table.Calls gate inner) : other.Calls gate inner := by
  obtain ⟨name, s, body, c, pos, hgate, hfound, hc, hinner⟩ := h
  exact ⟨name, s, body, c, pos, hgate, hsub _ _ hfound, hc, hinner⟩

/-- A gate whose names are all resolved leads to nothing more in a table that knows more. -/
theorem Resolves.mono (hsub : ∀ name d, table.lookup name = some d → other.lookup name = some d)
    {gate : GateName} (h : table.Resolves gate) : other.Resolves gate := by
  intro inner hreach
  -- each gate on the way is known to the smaller table, so its calls are the same there
  have hback : Relation.ReflTransGen table.Calls gate inner := by
    induction hreach with
    | refl => exact .refl
    | tail _ hstep ih =>
      obtain ⟨name, s, body, c, pos, rfl, hfound, hc, rfl⟩ := hstep
      obtain ⟨d, hd, -⟩ := h _ ih
      have hsame := hsub _ _ hd
      rw [hfound] at hsame
      cases hsame
      exact ih.tail ⟨name, s, body, c, pos, rfl, hd, hc, rfl⟩
  cases inner with
  | rotation => trivial
  | controlledNot => trivial
  | named name =>
    obtain ⟨d, hd, hresolves⟩ := h _ hback
    exact ⟨d, hsub _ _ hd, hresolves⟩

end GateTable

/-- What a declared name stands for is said by one of the statements before. -/
theorem Program.WellFormed.declares_of_declared {p : Program} (hp : p.WellFormed)
    {before rest : List Statement} (hsplit : p.statements = before ++ rest) {name : String}
    {kind : SymbolKind} (hkind : globalEnv p.statements name = some kind)
    (hdeclared : name ∈ declaredNames before) :
    ∃ s ∈ before, s.action.declares = some (name, kind) := by
  obtain ⟨⟨other, found⟩, hmem, rfl⟩ := List.mem_map.mp hdeclared
  obtain ⟨s, hs, hd⟩ := List.mem_filterMap.mp hmem
  have hin : s ∈ p.statements := by
    rw [hsplit]
    exact List.mem_append_left _ hs
  rw [hp.globalEnv_eq hin hd] at hkind
  cases hkind
  exact ⟨s, hs, hd⟩

namespace Executor

variable {R : Type} {p : Program} {before rest : List Statement} {x : Executor R}

/-- The gates of an executor are gates of the program. -/
theorem Tracks.lookup_definitions (h : x.Tracks before) (hsplit : p.statements = before ++ rest)
    (name : String) (d : GateDefinition) (hd : x.gates.lookup name = some d) :
    (definitions p.statements).lookup name = some d := by
  rw [h.gates] at hd
  rw [hsplit, definitions_append, List.lookup_append, hd]
  rfl

/-- A gate of the program that has been declared is a gate of the executor. -/
theorem Tracks.lookup_of_declared (h : x.Tracks before) (hp : p.WellFormed)
    (hsplit : p.statements = before ++ rest) {name : String} {d : GateDefinition}
    (hdeclared : name ∈ declaredNames before)
    (hd : (definitions p.statements).lookup name = some d) : x.gates.lookup name = some d := by
  have hdistinct := hp.distinct
  rw [hsplit, declaredNames_append] at hdistinct
  have hlater : name ∉ declaredNames rest :=
    fun hrest => (List.nodup_append'.mp hdistinct).2.2 hdeclared hrest
  rw [hsplit, definitions_append, List.lookup_append, OpenQasm.lookup_definitions hlater,
    Option.or_none] at hd
  rw [h.gates, hd]

/-- What the names of a gate lead to can be resolved once it is declared. -/
theorem Tracks.resolves (h : x.Tracks before) (hp : p.WellFormed)
    (hsplit : p.statements = before ++ rest) {gate : GateName}
    (hresolves : (definitions p.statements).Resolves gate)
    (hdeclared : ∀ name, Relation.ReflTransGen (definitions p.statements).Calls gate (.named name) →
      name ∈ declaredNames before) : x.gates.Resolves gate := by
  intro inner hreach
  have hsub := h.lookup_definitions hsplit
  have hreach : Relation.ReflTransGen (definitions p.statements).Calls gate inner :=
    Relation.ReflTransGen.mono (fun _ _ => GateTable.Calls.mono hsub) _ _ hreach
  cases inner with
  | rotation => trivial
  | controlledNot => trivial
  | named name =>
    obtain ⟨d, hd, hr⟩ := hresolves _ hreach
    exact ⟨d, h.lookup_of_declared hp hsplit (hdeclared name hreach) hd, hr⟩

/-- A quantum register of the program that has been declared is one of the machine. -/
theorem Tracks.isQuantum (h : x.Tracks before) (hp : p.WellFormed)
    (hsplit : p.statements = before ++ rest) {v : Operand} {width : Nat}
    (hv : (globalEnv p.statements).Register v .quantum width)
    (hdeclared : v.name ∈ declaredNames before) : x.machine.isQuantum v.name = true := by
  obtain ⟨s, hs, hd⟩ := hp.declares_of_declared hsplit hv.1 hdeclared
  have hmem : (v.name, width) ∈ x.machine.quantum.map (fun r => (r.name, r.width)) := by
    rw [h.quantum]
    exact List.mem_filterMap.mpr ⟨s, hs, Action.quantum?_eq_some_iff.mpr hd⟩
  obtain ⟨r, hr, heq⟩ := List.mem_map.mp hmem
  exact List.any_eq_true.mpr ⟨r, hr, by simpa using (Prod.mk.inj heq).1⟩

/-- The same of a classical register. -/
theorem Tracks.isClassical (h : x.Tracks before) (hp : p.WellFormed)
    (hsplit : p.statements = before ++ rest) {v : Operand} {width : Nat}
    (hv : (globalEnv p.statements).Register v .classical width)
    (hdeclared : v.name ∈ declaredNames before) : x.machine.isClassical v.name = true := by
  obtain ⟨s, hs, hd⟩ := hp.declares_of_declared hsplit hv.1 hdeclared
  have hmem : (v.name, width) ∈ x.machine.classical.map (fun r => (r.name, r.width)) := by
    rw [h.classical]
    exact List.mem_filterMap.mpr ⟨s, hs, Action.classical?_eq_some_iff.mpr hd⟩
  obtain ⟨r, hr, heq⟩ := List.mem_map.mp hmem
  exact List.any_eq_true.mpr ⟨r, hr, by simpa using (Prod.mk.inj heq).1⟩

/-! ## Names that are declared before use -/

/-- An operation whose names are declared and can be resolved is resolved by the executor. -/
theorem Tracks.resolvesOperation (h : x.Tracks before) (hp : p.WellFormed)
    (hsplit : p.statements = before ++ rest) {o : Operation}
    (hlegal : (globalEnv p.statements).LegalOperation o)
    (hresolvable : o.Resolvable (definitions p.statements))
    (hmentioned : ∀ name ∈ o.mentioned, name ∈ declaredNames before)
    (hcalled : ∀ gate name, o.gate? = some gate →
      Relation.ReflTransGen (definitions p.statements).Calls gate (.named name) →
      name ∈ declaredNames before) : x.machine.ResolvesOperation x.gates o := by
  have hglobal := global_globalEnv p.statements
  cases o with
  | call c =>
    obtain ⟨hpassed, hgate⟩ := hresolvable
    refine ⟨hpassed, fun v hv => ?_, ?_⟩
    · obtain ⟨width, hregister⟩ := (hlegal.2.2 v hv).register hglobal
      refine h.isQuantum hp hsplit hregister (hmentioned _ ?_)
      exact List.mem_append_left _ (List.mem_map_of_mem hv)
    · exact h.resolves hp hsplit hgate fun name => hcalled _ name rfl
  | measure source target =>
    obtain ⟨hsource, htarget⟩ := hlegal
    obtain ⟨_, hs⟩ := hsource.register hglobal
    obtain ⟨_, ht⟩ := htarget.register hglobal
    exact ⟨h.isQuantum hp hsplit hs (hmentioned _ (by simp [Operation.mentioned])),
      h.isClassical hp hsplit ht (hmentioned _ (by simp [Operation.mentioned]))⟩
  | reset target =>
    obtain ⟨kind, hnames⟩ := hlegal
    have hdeclared := hmentioned target.name (List.mem_singleton_self _)
    obtain ⟨register, width, rfl⟩ := hnames.kind_eq hglobal
    cases register with
    | quantum => exact Or.inl (h.isQuantum hp hsplit hnames.register hdeclared)
    | classical => exact Or.inr (h.isClassical hp hsplit hnames.register hdeclared)

variable [Scalar R]

theorem Executes.operation? {a : Action} {o : Operation} (h : x.Executes a o) :
    a.operation? = some o := by
  cases a with
  | operation other => exact congrArg some h.symm
  | conditional bits value other pos => exact congrArg some h.2.symm
  | _ => exact h.elim

/-- What can be resolved in a program can be in each of its states. -/
theorem resolvable_of_action {table : GateTable} {a : Action} (h : a.Resolvable table) :
    x.Resolvable table a :=
  ⟨h.1, fun o ho => h.2 o (Executes.operation? ho)⟩

/-- **A statement whose names are declared and can be resolved** is resolved by the executor. -/
theorem Tracks.resolvesAction (h : x.Tracks before) (hp : p.WellFormed)
    (hdeclared : p.DeclaredBeforeUse) {s : Statement} (hsplit : p.statements = before ++ s :: rest)
    (hresolvable : x.Resolvable (definitions p.statements) s.action) :
    x.ResolvesAction s.action := by
  have hin := mem_statements hsplit
  have hlegal := hp.legal s hin
  have huses := hdeclared before s rest hsplit
  have hglobal := global_globalEnv p.statements
  refine ⟨?_, ?_, ?_⟩
  · intro operands hs v hv
    rw [hs] at hlegal huses
    obtain ⟨width, hregister⟩ := (hlegal v hv).register hglobal
    refine h.isQuantum hp hsplit hregister (huses _ (.mentioned ?_))
    exact List.mem_map_of_mem hv
  · intro bits value o pos hs
    rw [hs] at hlegal huses hresolvable
    obtain ⟨width, hregister⟩ := hlegal.1.register hglobal
    refine ⟨?_, hresolvable.1 value rfl⟩
    exact h.isClassical hp hsplit hregister (huses _ (.mentioned List.mem_cons_self))
  · intro o ho
    have hlegal := Action.legal_operation hlegal ho.operation?
    refine h.resolvesOperation hp hsplit hlegal (hresolvable.2 o ho)
      (fun name hname => huses name (.mentioned (Action.mem_mentioned ho.operation? hname))) ?_
    intro gate name hgate hreach
    refine huses name (.gate ?_ hreach)
    rw [Action.gate?, ho.operation?]
    exact hgate

/-- **A statement that succeeds** had names that can be resolved. -/
theorem Tracks.resolvable_of_execute (h : x.Tracks before) {s : Statement}
    (hsplit : p.statements = before ++ s :: rest) (he : (x.execute s).error? = none) :
    x.Resolvable (definitions p.statements) s.action := by
  have hperform : (x.perform s.action).error? = none := Option.map_eq_none_iff.mp he
  have hoperation : ∀ o, (x.machine.operate x.gates o).error? = none →
      o.Resolvable (definitions p.statements) := by
    intro o ho
    cases o with
    | call c =>
      have hcall : x.machine.call x.gates c = ⟨(x.machine.call x.gates c).state, none⟩ := by
        rw [← ho]
        rfl
      obtain ⟨hpassed, hgate⟩ := Machine.resolves_of_call h.laid hcall
      exact ⟨hpassed, hgate.mono (h.lookup_definitions hsplit)⟩
    | measure source target => trivial
    | reset target => trivial
  cases hs : s.action with
  | operation o =>
    rw [hs] at hperform
    refine ⟨nofun, fun executed hexecuted => ?_⟩
    obtain rfl : executed = o := hexecuted
    exact hoperation _ hperform
  | conditional bits value o pos =>
    rw [hs] at hperform
    unfold perform at hperform
    dsimp only at hperform
    split at hperform
    · cases hperform
    · rename_i hcondition
      refine ⟨fun found hfound => ?_, fun executed hexecuted => ?_⟩
      · obtain rfl := Option.some.inj hfound
        exact Machine.variables_of_condition hcondition
      · rw [Executes, hcondition] at hexecuted
        cases hexecuted.1
    · rename_i hcondition
      refine ⟨fun found hfound => ?_, fun executed hexecuted => ?_⟩
      · obtain rfl := Option.some.inj hfound
        exact Machine.variables_of_condition hcondition
      · obtain rfl := hexecuted.2
        exact hoperation _ hperform
  | _ => exact ⟨nofun, fun _ h => h.elim⟩

end Executor

/-- A fault that blames a name which could not be resolved. -/
def RunFault.IsName : RunFault → Prop
  | .undefinedRegister _ | .undefinedGate _ | .unboundParameter _ => True
  | _ => False

theorem RunFault.Remains.not_named {named : Prop} {beyond : RunFault → Prop} {fault : RunFault}
    (h : fault.Remains named beyond) (hname : fault.IsName) : ¬named := by
  cases fault with
  | undefinedRegister name => exact h
  | undefinedGate name => exact h
  | unboundParameter v => exact h
  | _ => exact hname.elim

/-- **The checker and the runtime agree on names that can be resolved.** Let every name of an
accepted program be declared before it is used. If the names of its statements can be resolved, its
run never fails for a name. This is what it takes: a statement that is met succeeds only if the
names that it looks up can be resolved, and if it fails for a name they cannot. -/
theorem Program.execute_name_of_check {R : Type} [Scalar R] {p : Program} {t : SymbolTable}
    (h : p.check = .ok t) (hdeclared : p.DeclaredBeforeUse) (maxQubits : Nat) (draws : Nat → R) :
    ((∀ s ∈ p.statements, s.action.Resolvable (definitions p.statements)) →
      ∀ e, p.execute maxQubits draws = .error e → ¬e.fault.IsName) ∧
    ∀ before s rest x, p.statements = before ++ s :: rest →
      (Executor.initial maxQubits draws).run before = ⟨x, none⟩ →
      ((x.execute s).error? = none → x.Resolvable (definitions p.statements) s.action) ∧
      ∀ e, (x.execute s).error? = some e → e.fault.IsName →
        ¬x.Resolvable (definitions p.statements) s.action := by
  have hp := wellFormed_of_check h
  have hfails : ∀ {before s rest} {x : Executor R}, p.statements = before ++ s :: rest →
      x.Tracks before → ∀ e, (x.execute s).error? = some e → e.fault.IsName →
      ¬x.Resolvable (definitions p.statements) s.action := by
    intro before s rest x hsplit htracks e he
    have hremains : e.fault.Remains (x.Resolvable (definitions p.statements) s.action)
        (x.Beyond s.action) :=
      Executor.remains_of_execute htracks hp hsplit
        (fun hresolvable => htracks.resolvesAction hp hdeclared hsplit hresolvable) he
    exact hremains.not_named
  constructor
  · intro hresolvable e he hname
    obtain ⟨before, s, rest, x, hsplit, htracks, -, hfailed⟩ :=
      exists_failing_statement hp.distinct he
    have hin := mem_statements hsplit
    exact hfails hsplit htracks e hfailed hname (Executor.resolvable_of_action (hresolvable s hin))
  · intro before s rest x hsplit hrun
    have hdistinct := hp.distinct
    rw [hsplit, declaredNames_append] at hdistinct
    have htracks : x.Tracks before :=
      Executor.tracks_of_run (Executor.tracks_initial maxQubits draws)
        (List.nodup_append'.mp hdistinct).1 hrun
    exact ⟨htracks.resolvable_of_execute hsplit, hfails hsplit htracks⟩

/-! ## A formal argument with an index -/

/-- A place in the text of the programs below. -/
def formalPos (line column : Nat) : SourcePos := ⟨"formal.qasm", line, column⟩

/-- A gate that uses its first argument with this index, or without one:
```
qreg q[2];
gate g a, b { CX a, b; }
g q[0], q[1];
```
-/
def formalProgram (index : Option Nat) : Program where
  file := "formal.qasm"
  version := ⟨20, -1⟩
  includes := []
  statements :=
    [⟨.register .quantum "q" 2, formalPos 2 1⟩,
      ⟨.gate ⟨"g", none, ["a", "b"]⟩
        [⟨.call ⟨.controlledNot, none, [⟨"a", index, formalPos 3 18⟩, ⟨"b", none, formalPos 3 24⟩]⟩,
          formalPos 3 15⟩], formalPos 3 1⟩,
      ⟨.operation (.call ⟨.named "g", none,
        [⟨"q", some 0, formalPos 4 3⟩, ⟨"q", some 1, formalPos 4 9⟩]⟩), formalPos 4 1⟩]

/-- The gate leads to `CX` and nothing else. -/
theorem reaches_formalProgram {index : Option Nat} {inner : GateName}
    (h : Relation.ReflTransGen (definitions (formalProgram index).statements).Calls (.named "g")
      inner) : inner = .named "g" ∨ inner = .controlledNot := by
  induction h with
  | refl => exact Or.inl rfl
  | tail _ hstep ih =>
    obtain ⟨name, s, body, c, pos, hgate, hfound, hc, rfl⟩ := hstep
    rcases ih with rfl | rfl
    · cases hgate
      cases hfound
      cases List.mem_singleton.mp hc
      exact Or.inr rfl
    · cases hgate

theorem declaredBeforeUse_formalProgram (index : Option Nat) :
    (formalProgram index).DeclaredBeforeUse := by
  intro before s rest hsplit name huses
  have hnone : s.action.mentioned = [] → s.action.gate? = none → name ∈ declaredNames before := by
    intro hmentioned hgate
    cases huses with
    | mentioned h =>
      rw [hmentioned] at h
      cases h
    | gate h _ =>
      rw [hgate] at h
      cases h
    | body h _ _ _ _ _ =>
      rw [hgate] at h
      cases h
  rcases before with _ | ⟨first, _ | ⟨second, _ | ⟨third, before⟩⟩⟩
  · obtain ⟨rfl, -⟩ := List.cons.inj hsplit
    exact hnone rfl rfl
  · obtain ⟨rfl, htail⟩ := List.cons.inj hsplit
    obtain ⟨rfl, -⟩ := List.cons.inj htail
    exact hnone rfl rfl
  · obtain ⟨rfl, htail⟩ := List.cons.inj hsplit
    obtain ⟨rfl, hlast⟩ := List.cons.inj htail
    obtain ⟨rfl, -⟩ := List.cons.inj hlast
    show name ∈ ["q", "g"]
    cases huses with
    | mentioned h =>
      have hq : name ∈ ["q", "q"] := h
      simp at hq
      simp [hq]
    | gate h hreach =>
      cases h
      rcases reaches_formalProgram hreach with heq | heq
      · cases heq
        simp
      · cases heq
    | body h hreach hfound hc hname hfree =>
      cases h
      rcases reaches_formalProgram hreach with heq | heq
      · cases heq
        cases hfound
        cases List.mem_singleton.mp hc
        exact absurd hname hfree
      · cases heq
  · obtain ⟨-, htail⟩ := List.cons.inj hsplit
    obtain ⟨-, hlast⟩ := List.cons.inj htail
    obtain ⟨-, hnothing⟩ := List.cons.inj hlast
    cases before <;> cases hnothing

/-- Without an index, all names can be resolved. -/
theorem resolvable_formalProgram : ∀ s ∈ (formalProgram none).statements,
    s.action.Resolvable (definitions (formalProgram none).statements) := by
  intro s hs
  refine ⟨?_, ?_⟩
  · intro value hvalue
    simp only [formalProgram, List.mem_cons, List.not_mem_nil, or_false] at hs
    rcases hs with rfl | rfl | rfl <;> cases hvalue
  · intro o ho
    simp only [formalProgram, List.mem_cons, List.not_mem_nil, or_false] at hs
    rcases hs with rfl | rfl | rfl
    · cases ho
    · cases ho
    · cases ho
      refine ⟨fun e he => absurd he List.not_mem_nil, fun inner hreach => ?_⟩
      rcases reaches_formalProgram hreach with rfl | rfl
      · refine ⟨_, rfl, fun c pos hc => ?_⟩
        cases List.mem_singleton.mp hc
        refine ⟨?_, fun e he => absurd he List.not_mem_nil⟩
        decide
      · trivial

/-- The program without an index is accepted, and never fails for a name. -/
theorem execute_formalProgram : ∃ t, (formalProgram none).check = .ok t ∧
    (formalProgram none).DeclaredBeforeUse ∧
    (∀ s ∈ (formalProgram none).statements,
      s.action.Resolvable (definitions (formalProgram none).statements)) ∧
    ∀ e, (formalProgram none).execute 24 (Random.draw 0) = .error e → ¬e.fault.IsName := by
  have haccepted : (formalProgram none).check.isOk = true := by decide +kernel
  obtain ⟨t, hcheck⟩ := exists_eq_ok haccepted
  have hdeclared := declaredBeforeUse_formalProgram none
  obtain ⟨hnames, -⟩ := Program.execute_name_of_check hcheck hdeclared 24 (Random.draw 0)
  exact ⟨t, hcheck, hdeclared, resolvable_formalProgram, hnames resolvable_formalProgram⟩

/-- **With an index the program is accepted as well**, all its names are declared before use, and
its run fails: the runtime does not resolve a name that the checker did. -/
theorem execute_formalProgram_indexed : (∃ t, (formalProgram (some 0)).check = .ok t) ∧
    (formalProgram (some 0)).DeclaredBeforeUse ∧
    ∃ e, (formalProgram (some 0)).execute 24 (Random.draw 0) = .error e ∧
      e.fault = .undefinedRegister "a[0]" := by
  refine ⟨?_, declaredBeforeUse_formalProgram _, ?_⟩
  · exact exists_eq_ok (by decide +kernel)
  · exact exists_eq_error (by decide +kernel)

end OpenQasm
