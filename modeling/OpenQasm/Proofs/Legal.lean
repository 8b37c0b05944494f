import OpenQasm.Proofs.Fallible
import OpenQasm.Scope.Check

/-!
# Legal statements

The rules that the verification pass checks, read off an environment: what each name stands for.
The pass looks at its symbol table only through `SymbolTable.kinds`, and each of its checks succeeds
exactly when the rule for it holds there (`resolve_eq_ok` to `checkConditional_eq_ok`).
-/

namespace OpenQasm

/-- What each name stands for. -/
abbrev Env := String → Option SymbolKind

/-- Whether a symbol may be used as a variable with this index, or without one. An index must lie
inside the register that it is applied to; that of a formal is not looked at. -/
def SymbolKind.Admits : SymbolKind → Option Nat → Prop
  | .register _ width, index => ∀ i, index = some i → i < width
  | .gate .., _ => False
  | .parameter _, _ | .argument _, _ => True

namespace Env

variable (env : Env)

/-- An operand names a variable of this kind. -/
def Names (v : Operand) (kind : SymbolKind) : Prop := env v.name = some kind ∧ kind.Admits v.index

/-- An operand is a qubit, or a register of qubits. -/
def Qubit (v : Operand) : Prop := ∃ kind, env.Names v kind ∧ kind.isQubit = true

/-- An operand is a variable and no qubit. -/
def Classical (v : Operand) : Prop := ∃ kind, env.Names v kind ∧ kind.isQubit = false

/-- Whether an operand of this kind is a single number or bit. -/
def isScalar (kind : SymbolKind) (v : Operand) : Bool :=
  match kind with
  | .register .. => v.isIndexed
  | _ => !v.isIndexed

/-- Arithmetic can be done with an expression: an operand must be a single number. -/
def Number : Expr → Prop
  | .operand v => ∃ kind, env.Names v kind ∧ isScalar kind v = true ∧ kind.isQubit = false
  | _ => True

/-- Every operand of an expression is a variable, and arithmetic is done with numbers. -/
def LegalExpr : Expr → Prop
  | .real .. | .integer .. | .pi _ => True
  | .operand v => ∃ kind, env.Names v kind
  | .neg target _ => LegalExpr target
  | .binary _ left right =>
    LegalExpr left ∧ LegalExpr right ∧ env.Number left ∧ env.Number right
  | .call _ target _ => LegalExpr target ∧ env.Number target

/-- A gate takes this many parameters and arguments. -/
def Takes (gate : GateName) (parameters arguments : Nat) : Prop :=
  match gate with
  | .rotation => parameters = 3 ∧ arguments = 1
  | .controlledNot => parameters = 0 ∧ arguments = 2
  | .named name => env name = some (.gate parameters arguments)

/-- A gate call is legal. -/
def LegalCall (c : GateCall) : Prop :=
  env.Takes c.gate c.passed.length c.operands.length ∧ (∀ e ∈ c.passed, env.LegalExpr e) ∧
    ∀ v ∈ c.operands, env.Qubit v

/-- A quantum operation is legal. -/
def LegalOperation : Operation → Prop
  | .call c => env.LegalCall c
  | .measure source target => env.Qubit source ∧ env.Classical target
  | .reset target => ∃ kind, env.Names target kind

/-- What stands in the body of a gate is legal. -/
def LegalBody (action : BodyAction) : Prop :=
  match action with
  | .call c => env.LegalCall c
  | .barrier operands => ∀ v ∈ operands, env.Qubit v

end Env

/-- What each name stands for in a symbol table. -/
def SymbolTable.kinds (t : SymbolTable) : Env := fun name => (t.lookup? name).map Symbol.kind

namespace Check

variable {t : SymbolTable}

/-! ## Operands and expressions -/

theorem resolve_eq_ok {v : Operand} {symbol : Symbol} :
    resolve t v = .ok symbol ↔
      t.lookup? v.name = some symbol ∧ symbol.kind.Admits v.index := by
  unfold resolve
  cases hl : t.lookup? v.name with
  | none => exact ⟨nofun, fun h => nomatch h.1⟩
  | some found =>
    have hfound : (Except.ok found : Except SemanticError Symbol) = .ok symbol ↔
        some found = some symbol := by
      rw [Except.ok.injEq, Option.some.injEq]
    obtain ⟨name, line, kind⟩ := found
    cases kind with
    | register register width =>
      cases hi : v.index with
      | none =>
        refine hfound.trans ⟨fun h => ⟨h, ?_⟩, fun h => h.1⟩
        cases h
        nofun
      | some index =>
        by_cases hw : width ≤ index
        · simp only [if_pos hw]
          refine ⟨nofun, fun ⟨h, hadmits⟩ => ?_⟩
          cases h
          exact absurd (hadmits index rfl) (Nat.not_lt.mpr hw)
        · simp only [if_neg hw]
          refine hfound.trans ⟨fun h => ⟨h, ?_⟩, fun h => h.1⟩
          cases h
          rintro _ ⟨⟩
          exact Nat.lt_of_not_le hw
    | gate parameters arguments =>
      refine ⟨nofun, fun ⟨h, hadmits⟩ => ?_⟩
      cases h
      exact hadmits.elim
    | parameter position =>
      refine hfound.trans ⟨fun h => ⟨h, ?_⟩, fun h => h.1⟩
      cases h
      trivial
    | argument position =>
      refine hfound.trans ⟨fun h => ⟨h, ?_⟩, fun h => h.1⟩
      cases h
      trivial

/-- An operand that resolves names a variable, and only then. -/
theorem names_iff {v : Operand} {kind : SymbolKind} :
    t.kinds.Names v kind ↔ ∃ symbol, resolve t v = .ok symbol ∧ symbol.kind = kind := by
  simp only [resolve_eq_ok, Env.Names, SymbolTable.kinds, Option.map_eq_some_iff]
  constructor
  · rintro ⟨⟨symbol, hl, rfl⟩, hadmits⟩
    exact ⟨symbol, ⟨hl, hadmits⟩, rfl⟩
  · rintro ⟨symbol, ⟨hl, hadmits⟩, rfl⟩
    exact ⟨⟨symbol, hl, rfl⟩, hadmits⟩

theorem isQubit_eq_ok {v : Operand} {b : Bool} :
    isQubit t v = .ok b ↔ ∃ kind, t.kinds.Names v kind ∧ kind.isQubit = b := by
  simp only [names_iff]
  unfold isQubit
  cases resolve t v with
  | error e => exact ⟨nofun, fun ⟨_, ⟨_, h, _⟩, _⟩ => nomatch h⟩
  | ok symbol =>
    constructor
    · intro h
      exact ⟨symbol.kind, ⟨symbol, rfl, rfl⟩, Except.ok.inj h⟩
    · rintro ⟨_, ⟨_, h, rfl⟩, rfl⟩
      cases h
      rfl

theorem isScalar_eq_ok {v : Operand} {b : Bool} :
    isScalar t v = .ok b ↔ ∃ kind, t.kinds.Names v kind ∧ Env.isScalar kind v = b := by
  simp only [names_iff]
  unfold isScalar
  cases resolve t v with
  | error e => exact ⟨nofun, fun ⟨_, ⟨_, h, _⟩, _⟩ => nomatch h⟩
  | ok symbol =>
    constructor
    · intro h
      exact ⟨symbol.kind, ⟨symbol, rfl, rfl⟩, Except.ok.inj h⟩
    · rintro ⟨_, ⟨_, h, rfl⟩, rfl⟩
      cases h
      rfl

/-- A name stands for one thing. -/
theorem kind_unique {env : Env} {v : Operand} {kind other : SymbolKind} (h : env.Names v kind)
    (ho : env.Names v other) : other = kind :=
  Option.some.inj (ho.1.symm.trans h.1)

theorem checkArithmetic_eq_ok {operation : String} {e : Expr} :
    checkArithmetic t operation e = .ok () ↔ t.kinds.Number e := by
  cases e with
  | operand v =>
    simp only [checkArithmetic, bind_eq_ok, ite_throw_bind_eq_ok, ite_throw_eq_ok, isScalar_eq_ok,
      isQubit_eq_ok]
    constructor
    · rintro ⟨_, ⟨kind, hkind, rfl⟩, hs, _, ⟨_, hother, rfl⟩, hq, -⟩
      obtain rfl := kind_unique hkind hother
      exact ⟨_, hkind, by simpa using hs, by simpa using hq⟩
    · rintro ⟨kind, hkind, hs, hq⟩
      exact ⟨true, ⟨kind, hkind, hs⟩, by simp, false, ⟨kind, hkind, hq⟩, by simp, rfl⟩
  | _ => exact ⟨fun _ => trivial, fun _ => rfl⟩

/-- An operand that is only looked up must name a variable. -/
theorem discard_resolve_eq_ok {v : Operand} :
    discard (resolve t v) = .ok () ↔ ∃ kind, t.kinds.Names v kind := by
  simp only [names_iff]
  cases resolve t v with
  | error e => exact ⟨nofun, fun ⟨_, _, h, _⟩ => nomatch h⟩
  | ok symbol => exact ⟨fun _ => ⟨_, symbol, rfl, rfl⟩, fun _ => rfl⟩

theorem checkExpr_eq_ok : ∀ {e : Expr}, checkExpr t e = .ok () ↔ t.kinds.LegalExpr e
  | .real .. | .integer .. | .pi _ => ⟨fun _ => trivial, fun _ => rfl⟩
  | .operand _ => discard_resolve_eq_ok
  | .neg target _ => by
    rw [checkExpr]
    exact checkExpr_eq_ok (e := target)
  | .binary op left right => by
    simp only [checkExpr, Env.LegalExpr, seq_eq_ok, checkArithmetic_eq_ok]
    rw [checkExpr_eq_ok (e := left), checkExpr_eq_ok (e := right)]
  | .call _ target _ => by
    simp only [checkExpr, Env.LegalExpr, seq_eq_ok, checkArithmetic_eq_ok]
    rw [checkExpr_eq_ok (e := target)]

/-! ## Statements -/

theorem checkQubits_eq_ok {pos : SourcePos} {fault : String → SemanticFault}
    {operands : List Operand} :
    checkQubits t pos fault operands = .ok () ↔ ∀ v ∈ operands, t.kinds.Qubit v := by
  unfold checkQubits
  rw [forM_eq_ok]
  refine forall₂_congr fun v _ => ?_
  simp only [bind_eq_ok, ite_throw_eq_ok, isQubit_eq_ok, Env.Qubit]
  constructor
  · rintro ⟨_, ⟨kind, hkind, rfl⟩, hq, -⟩
    exact ⟨kind, hkind, by simpa using hq⟩
  · intro h
    exact ⟨true, h, by simp, rfl⟩

theorem checkArguments_eq_ok {c : GateCall} {expected : Nat} {pos : SourcePos} :
    checkArguments c expected pos = .ok () ↔ c.operands.length = expected := by
  unfold checkArguments
  by_cases h : c.operands.length = expected
  · rw [if_pos h]
    exact ⟨fun _ => h, fun _ => rfl⟩
  · rw [if_neg h]
    exact ⟨nofun, fun he => absurd he h⟩

/-- A count must be the one expected before the arguments are counted. -/
theorem ite_checkArguments_eq_ok {c : GateCall} {passed parameters arguments : Nat}
    {pos : SourcePos} {e : SemanticError} :
    (if passed = parameters then checkArguments c arguments pos else .error e) = .ok () ↔
      passed = parameters ∧ c.operands.length = arguments := by
  by_cases h : passed = parameters
  · rw [if_pos h, checkArguments_eq_ok]
    exact ⟨fun ha => ⟨h, ha⟩, fun ha => ha.2⟩
  · rw [if_neg h]
    exact ⟨nofun, fun ha => absurd ha.1 h⟩

theorem checkArity_eq_ok {c : GateCall} {pos : SourcePos} :
    checkArity t c pos = .ok () ↔ t.kinds.Takes c.gate c.passed.length c.operands.length := by
  obtain ⟨gate, _, operands⟩ := c
  unfold checkArity Env.Takes SymbolTable.kinds
  cases gate with
  | rotation => exact ite_checkArguments_eq_ok
  | controlledNot => exact ite_checkArguments_eq_ok
  | named name =>
    dsimp only
    cases t.lookup? name with
    | none => exact ⟨fun h => (nomatch h), fun h => (nomatch h)⟩
    | some symbol =>
      obtain ⟨_, line, kind⟩ := symbol
      cases kind with
      | gate parameters arguments =>
        refine ite_checkArguments_eq_ok.trans ?_
        simp only [Option.map_some, Option.some.injEq, SymbolKind.gate.injEq]
        exact and_congr eq_comm eq_comm
      | _ => exact ⟨fun h => (nomatch h), fun h => (nomatch h)⟩

/-- **A call is accepted exactly when it is legal.** -/
theorem checkCall_eq_ok {c : GateCall} {pos : SourcePos} :
    checkCall t c pos = .ok () ↔ t.kinds.LegalCall c := by
  simp only [checkCall, Env.LegalCall, seq_eq_ok, checkArity_eq_ok, forM_eq_ok, checkExpr_eq_ok,
    checkQubits_eq_ok]

theorem checkOperation_eq_ok {o : Operation} {pos : SourcePos} :
    checkOperation t o pos = .ok () ↔ t.kinds.LegalOperation o := by
  cases o with
  | call c => exact checkCall_eq_ok
  | measure source target =>
    simp only [checkOperation, Env.LegalOperation, Env.Qubit, Env.Classical, bind_eq_ok,
      ite_throw_bind_eq_ok, ite_throw_eq_ok, isQubit_eq_ok]
    constructor
    · rintro ⟨_, ⟨kind, hkind, rfl⟩, hq, _, ⟨other, hother, rfl⟩, hc, -⟩
      exact ⟨⟨kind, hkind, by simpa using hq⟩, other, hother, by simpa using hc⟩
    · rintro ⟨hq, hc⟩
      exact ⟨true, hq, by simp, false, hc, by simp, rfl⟩
  | reset target => exact discard_resolve_eq_ok

theorem checkBodyStatement_eq_ok {s : BodyStatement} :
    checkBodyStatement t s = .ok () ↔ t.kinds.LegalBody s.action := by
  unfold checkBodyStatement Env.LegalBody
  cases s.action with
  | call c => exact checkCall_eq_ok
  | barrier operands => exact checkQubits_eq_ok

theorem checkConditional_eq_ok {register : Operand} {value : Expr} {o : Operation}
    {operationPos pos : SourcePos} :
    checkConditional t register value o operationPos pos = .ok () ↔
      t.kinds.Classical register ∧ t.kinds.LegalExpr value ∧ t.kinds.LegalOperation o := by
  rw [checkConditional, bind_eq_ok]
  simp only [ite_throw_bind_eq_ok, isQubit_eq_ok, seq_eq_ok, checkExpr_eq_ok, checkOperation_eq_ok,
    Env.Classical]
  constructor
  · rintro ⟨_, ⟨kind, hkind, rfl⟩, hc, hrest⟩
    exact ⟨⟨kind, hkind, by simpa using hc⟩, hrest⟩
  · rintro ⟨hc, hrest⟩
    exact ⟨false, hc, by simp, hrest⟩

end Check

end OpenQasm
