import OpenQasm.Proofs.Accepted
import OpenQasm.Proofs.Names

/-!
# What breaks a rule, and where

For each kind of construct a relation says what can be wrong with it, at which position and with
which fault: `Expr.Breaks env e place fault` says that a construct inside of `e` breaks a rule at
`place`. A check that fails reports one of these (`ends_resolve` to `ends_checkConditional`), and
never a declaration around it.

A fault lies at the position of the statement, or at that of a variable inside it (`place_mem`,
`Statement.Breaks.place_mem`): the operand of an arithmetic operation that is no number is always a
variable.
-/

namespace OpenQasm

/-! ## Broken rules -/

/-- An operand cannot be used as a variable. -/
inductive Operand.Breaks (env : Env) (v : Operand) : SemanticFault → Prop
  | undefined : env v.name = none → Breaks env v (.undefinedVariable v.name)
  | gate {parameters arguments : Nat} (line : Nat) :
      env v.name = some (.gate parameters arguments) → Breaks env v (.notAVariable v.name line)
  | index {kind : RegisterKind} {width i : Nat} : env v.name = some (.register kind width) →
      v.index = some i → width ≤ i → Breaks env v (.indexOutOfRange v.name width i)

/-- Arithmetic is done with what is no number. -/
inductive Expr.NotNumber (env : Env) (operation : String) : Expr → SemanticFault → Prop
  | vector {v : Operand} {kind : SymbolKind} : env.Names v kind → Env.isScalar kind v = false →
      NotNumber env operation (.operand v) (.vectorOperand operation (.operand v))
  | qubit {v : Operand} {kind : SymbolKind} : env.Names v kind → Env.isScalar kind v = true →
      kind.isQubit = true →
      NotNumber env operation (.operand v) (.qubitOperand operation (.operand v))

/-- A construct inside of an expression breaks a rule. -/
inductive Expr.Breaks (env : Env) : Expr → SourcePos → SemanticFault → Prop
  | operand {v : Operand} {fault : SemanticFault} : v.Breaks env fault →
      Breaks env (.operand v) v.pos fault
  | neg {target : Expr} {pos place : SourcePos} {fault : SemanticFault} :
      Breaks env target place fault → Breaks env (.neg target pos) place fault
  | left {op : BinaryOp} {left right : Expr} {place : SourcePos} {fault : SemanticFault} :
      Breaks env left place fault → Breaks env (.binary op left right) place fault
  | right {op : BinaryOp} {left right : Expr} {place : SourcePos} {fault : SemanticFault} :
      Breaks env right place fault → Breaks env (.binary op left right) place fault
  | leftOperand {op : BinaryOp} {left right : Expr} {fault : SemanticFault} :
      left.NotNumber env op.describe fault → Breaks env (.binary op left right) left.pos fault
  | rightOperand {op : BinaryOp} {left right : Expr} {fault : SemanticFault} :
      right.NotNumber env op.describe fault → Breaks env (.binary op left right) right.pos fault
  | target {function : Function} {target : Expr} {pos place : SourcePos} {fault : SemanticFault} :
      Breaks env target place fault → Breaks env (.call function target pos) place fault
  | targetOperand {function : Function} {target : Expr} {pos : SourcePos}
      {fault : SemanticFault} :
      target.NotNumber env "Unary" fault → Breaks env (.call function target pos) target.pos fault

/-- A statement uses an operand as a qubit that is none; `fault` says what it is used for. -/
inductive Operand.NotQubit (env : Env) (v : Operand) (pos : SourcePos)
    (fault : String → SemanticFault) : SourcePos → SemanticFault → Prop
  | unresolved {reason : SemanticFault} :
      v.Breaks env reason → NotQubit env v pos fault v.pos reason
  | classical : env.Classical v → NotQubit env v pos fault pos (fault v.name)

/-- A statement uses an operand as classical that is not; `fault` says what it is used for. -/
inductive Operand.NotClassical (env : Env) (v : Operand) (pos : SourcePos)
    (fault : String → SemanticFault) : SourcePos → SemanticFault → Prop
  | unresolved {reason : SemanticFault} :
      v.Breaks env reason → NotClassical env v pos fault v.pos reason
  | qubit : env.Qubit v → NotClassical env v pos fault pos (fault v.name)

/-- The gate does not exist, or is given other counts than it takes. -/
inductive GateCall.WrongCounts (env : Env) (c : GateCall) : SemanticFault → Prop
  | undefined {name : String} : c.gate = .named name → env name = none →
      WrongCounts env c (.undefinedOperator name)
  | notAnOperator {name : String} {kind : SymbolKind} (line : Nat) : c.gate = .named name →
      env name = some kind → (∀ parameters arguments, kind ≠ .gate parameters arguments) →
      WrongCounts env c (.notAnOperator name line)
  | parameters {name : String} {parameters arguments : Nat} : c.gate = .named name →
      env name = some (.gate parameters arguments) → c.passed.length ≠ parameters →
      WrongCounts env c (.parameterCount name parameters (c.parameters.map List.length))
  | rotation : c.gate = .rotation → c.passed.length ≠ 3 →
      WrongCounts env c (.rotationParameterCount c.passed.length)
  | controlledNot : c.gate = .controlledNot → c.passed.length ≠ 0 →
      WrongCounts env c (.controlledNotParameterCount c.passed.length)
  | arguments {arguments : Nat} : env.Takes c.gate c.passed.length arguments →
      c.operands.length ≠ arguments →
      WrongCounts env c (.argumentCount c.gate.text arguments c.operands.length)

/-- A gate call that stands at `pos` breaks a rule. -/
inductive GateCall.Breaks (env : Env) (c : GateCall) (pos : SourcePos) :
    SourcePos → SemanticFault → Prop
  | counts {fault : SemanticFault} : c.WrongCounts env fault → Breaks env c pos pos fault
  | parameter {e : Expr} {place : SourcePos} {fault : SemanticFault} : e ∈ c.passed →
      e.Breaks env place fault → Breaks env c pos place fault
  | operand {v : Operand} {place : SourcePos} {fault : SemanticFault} : v ∈ c.operands →
      v.NotQubit env pos .argumentNotQubit place fault → Breaks env c pos place fault

/-- A barrier that stands at `pos` breaks a rule. -/
def Env.BreaksBarrier (env : Env) (operands : List Operand) (pos place : SourcePos)
    (fault : SemanticFault) : Prop :=
  ∃ v ∈ operands, v.NotQubit env pos .barrierNotQubit place fault

/-- A quantum operation that stands at `pos` breaks a rule. -/
inductive Operation.Breaks (env : Env) (pos : SourcePos) :
    Operation → SourcePos → SemanticFault → Prop
  | call {c : GateCall} {place : SourcePos} {fault : SemanticFault} :
      c.Breaks env pos place fault → Breaks env pos (.call c) place fault
  | source {source target : Operand} {place : SourcePos} {fault : SemanticFault} :
      source.NotQubit env pos .sourceNotQubit place fault →
      Breaks env pos (.measure source target) place fault
  | target {source target : Operand} {place : SourcePos} {fault : SemanticFault} :
      target.NotClassical env pos .targetNotClassical place fault →
      Breaks env pos (.measure source target) place fault
  | reset {target : Operand} {fault : SemanticFault} : target.Breaks env fault →
      Breaks env pos (.reset target) target.pos fault

/-- A statement of a gate's body breaks a rule. -/
def BodyStatement.Breaks (env : Env) (s : BodyStatement) : SourcePos → SemanticFault → Prop :=
  match s.action with
  | .call c => c.Breaks env s.pos
  | .barrier operands => env.BreaksBarrier operands s.pos

/-- What a statement does outside of any gate's body breaks a rule; `pos` is where it stands. -/
inductive Action.Breaks (env : Env) (pos : SourcePos) :
    Action → SourcePos → SemanticFault → Prop
  | operation {o : Operation} {place : SourcePos} {fault : SemanticFault} :
      o.Breaks env pos place fault → Breaks env pos (.operation o) place fault
  | barrier {operands : List Operand} {place : SourcePos} {fault : SemanticFault} :
      env.BreaksBarrier operands pos place fault → Breaks env pos (.barrier operands) place fault
  | register {register : Operand} {value : Expr} {o : Operation} {operationPos place : SourcePos}
      {fault : SemanticFault} :
      register.NotClassical env pos .conditionOnQubit place fault →
      Breaks env pos (.conditional register value o operationPos) place fault
  | value {register : Operand} {value : Expr} {o : Operation} {operationPos place : SourcePos}
      {fault : SemanticFault} : value.Breaks env place fault →
      Breaks env pos (.conditional register value o operationPos) place fault
  | guarded {register : Operand} {value : Expr} {o : Operation} {operationPos place : SourcePos}
      {fault : SemanticFault} : o.Breaks env operationPos place fault →
      Breaks env pos (.conditional register value o operationPos) place fault

/-! ## Reports of failing checks -/

/-- An error reports a broken rule, and no declaration around it. -/
def Reports (breaks : SourcePos → SemanticFault → Prop) (e : SemanticError) : Prop :=
  breaks e.pos e.fault ∧ e.trace = []

/-- A fault inside of a construct is one inside of what is around it. -/
theorem Ends.inside {α : Type} {x : Except SemanticError α} {post : α → Prop}
    {breaks other : SourcePos → SemanticFault → Prop} (h : Ends x post (Reports breaks))
    (hb : ∀ {place fault}, breaks place fault → other place fault) : Ends x post (Reports other) :=
  h.mono (fun _ hx => hx) fun _ he => ⟨hb he.1, he.2⟩

theorem ends_found {α : Type} {post : α → Prop} {breaks : SourcePos → SemanticFault → Prop}
    {place : SourcePos} {fault : SemanticFault} (h : breaks place fault) :
    Ends (.error (.found place fault)) post (Reports breaks) :=
  show Reports breaks (.found place fault) from ⟨h, rfl⟩

namespace Check

variable {t : SymbolTable} {pos : SourcePos}

/-- The kind of what a name is bound to. -/
theorem kinds_of_lookup {name : String} {found : Option Symbol} (h : t.lookup? name = found) :
    t.kinds name = found.map Symbol.kind := congrArg (·.map Symbol.kind) h

theorem reports_of_resolve {v : Operand} {e : SemanticError} (h : resolve t v = .error e) :
    Reports (fun place fault => place = v.pos ∧ v.Breaks t.kinds fault) e := by
  unfold resolve at h
  split at h
  · rename_i hlookup
    cases h
    exact ⟨⟨rfl, .undefined (kinds_of_lookup hlookup)⟩, rfl⟩
  · rename_i symbol hlookup
    have hkind : t.kinds v.name = some symbol.kind := kinds_of_lookup hlookup
    split at h
    · rename_i hregister hindex
      split at h
      · rename_i hwidth
        cases h
        exact ⟨⟨rfl, .index (hkind.trans (congrArg some hregister)) hindex hwidth⟩, rfl⟩
      · cases h
    · rename_i hgate
      cases h
      exact ⟨⟨rfl, .gate symbol.line (hkind.trans (congrArg some hgate))⟩, rfl⟩
    · cases h

theorem ends_resolve (t : SymbolTable) (v : Operand) :
    Ends (resolve t v) (fun symbol => t.kinds.Names v symbol.kind)
      (Reports fun place fault => place = v.pos ∧ v.Breaks t.kinds fault) := by
  cases h : resolve t v with
  | ok symbol => exact names_iff.mpr ⟨symbol, h, rfl⟩
  | error e => exact reports_of_resolve h

theorem ends_isQubit (t : SymbolTable) (v : Operand) :
    Ends (isQubit t v) (fun b => ∃ kind, t.kinds.Names v kind ∧ kind.isQubit = b)
      (Reports fun place fault => place = v.pos ∧ v.Breaks t.kinds fault) :=
  (ends_resolve t v).map fun symbol hsymbol => ⟨symbol.kind, hsymbol, rfl⟩

/-- The operands of arithmetic have been resolved before. -/
theorem ends_checkArithmetic (operation : String) {e : Expr} (he : t.kinds.LegalExpr e) :
    Ends (checkArithmetic t operation e) (fun _ => True)
      (Reports fun place fault => place = e.pos ∧ e.NotNumber t.kinds operation fault) := by
  cases e with
  | operand v =>
    obtain ⟨kind, hkind⟩ := he
    have hscalar : isScalar t v = .ok (Env.isScalar kind v) :=
      isScalar_eq_ok.mpr ⟨kind, hkind, rfl⟩
    have hqubit : isQubit t v = .ok kind.isQubit := isQubit_eq_ok.mpr ⟨kind, hkind, rfl⟩
    rw [checkArithmetic, hscalar, hqubit]
    cases hs : Env.isScalar kind v with
    | false => exact ends_found ⟨rfl, .vector hkind hs⟩
    | true =>
      cases hq : kind.isQubit with
      | false => trivial
      | true => exact ends_found ⟨rfl, .qubit hkind hs hq⟩
  | _ => trivial

theorem ends_checkExpr : ∀ e : Expr,
    Ends (checkExpr t e) (fun _ => True) (Reports (e.Breaks t.kinds))
  | .real .. | .integer .. | .pi _ => trivial
  | .operand v => (ends_resolve t v).discard.inside fun ⟨hplace, hv⟩ => hplace ▸ .operand hv
  | .neg target _ => (ends_checkExpr target).inside .neg
  | .binary op left right => by
    refine ((ends_checkExpr left).inside .left).bind fun _ hleft _ =>
      ((ends_checkExpr right).inside .right).bind fun _ hright _ => ?_
    have hleft := ends_checkArithmetic op.describe (checkExpr_eq_ok.mp hleft)
    have hright := ends_checkArithmetic op.describe (checkExpr_eq_ok.mp hright)
    exact (hleft.inside fun ⟨hplace, hn⟩ => hplace ▸ .leftOperand hn).bind fun _ _ _ =>
      hright.inside fun ⟨hplace, hn⟩ => hplace ▸ .rightOperand hn
  | .call _ target _ => by
    refine ((ends_checkExpr target).inside .target).bind fun _ htarget _ => ?_
    have htarget := ends_checkArithmetic "Unary" (checkExpr_eq_ok.mp htarget)
    exact htarget.inside fun ⟨hplace, hn⟩ => hplace ▸ .targetOperand hn

theorem ends_checkQubits {fault : String → SemanticFault} {operands : List Operand} :
    Ends (checkQubits t pos fault operands) (fun _ => True)
      (Reports fun place reason => ∃ v ∈ operands, v.NotQubit t.kinds pos fault place reason) := by
  refine Ends.forM fun v hv => ?_
  refine ((ends_isQubit t v).inside fun ⟨hplace, hreason⟩ =>
    hplace ▸ ⟨v, hv, .unresolved hreason⟩).bind fun b _ hb => ?_
  cases b with
  | true => trivial
  | false => exact ends_found ⟨v, hv, .classical hb⟩

theorem ends_checkArguments {c : GateCall} {arguments : Nat}
    (h : t.kinds.Takes c.gate c.passed.length arguments) :
    Ends (checkArguments c arguments pos) (fun _ => True)
      (Reports fun place fault => place = pos ∧ c.WrongCounts t.kinds fault) := by
  unfold checkArguments
  by_cases hc : c.operands.length = arguments
  · rw [if_pos hc]
    trivial
  · rw [if_neg hc]
    exact ends_found ⟨rfl, .arguments h hc⟩

theorem ends_checkArity {c : GateCall} : Ends (checkArity t c pos) (fun _ => True)
    (Reports fun place fault => place = pos ∧ c.WrongCounts t.kinds fault) := by
  unfold checkArity
  split
  · rename_i hgate
    split
    · rename_i hcount
      exact ends_checkArguments (by rw [hgate]; exact ⟨hcount, rfl⟩)
    · rename_i hcount
      exact ends_found ⟨rfl, .rotation hgate hcount⟩
  · rename_i hgate
    split
    · rename_i hcount
      exact ends_checkArguments (by rw [hgate]; exact ⟨hcount, rfl⟩)
    · rename_i hcount
      exact ends_found ⟨rfl, .controlledNot hgate hcount⟩
  · rename_i name hgate
    split
    · rename_i hlookup
      exact ends_found ⟨rfl, .undefined hgate (kinds_of_lookup hlookup)⟩
    · rename_i symbol hlookup
      have hkind : t.kinds name = some symbol.kind := kinds_of_lookup hlookup
      split
      · rename_i parameters arguments hsymbol
        rw [hsymbol] at hkind
        split
        · rename_i hcount
          exact ends_checkArguments (by rw [hgate, hcount]; exact hkind)
        · rename_i hcount
          exact ends_found ⟨rfl, .parameters hgate hkind hcount⟩
      · rename_i hother
        exact ends_found ⟨rfl, .notAnOperator symbol.line hgate hkind hother⟩

theorem ends_checkCall {c : GateCall} :
    Ends (checkCall t c pos) (fun _ => True) (Reports (c.Breaks t.kinds pos)) := by
  refine (ends_checkArity.inside fun ⟨hplace, hcounts⟩ => hplace ▸ .counts hcounts).bind
    fun _ _ _ => ?_
  have hparameters : Ends (c.passed.forM (checkExpr t)) (fun _ => True)
      (Reports (c.Breaks t.kinds pos)) :=
    Ends.forM fun e he => (ends_checkExpr e).inside (.parameter he)
  exact hparameters.bind fun _ _ _ =>
    ends_checkQubits.inside fun ⟨_, hv, hbreaks⟩ => .operand hv hbreaks

theorem ends_checkOperation {o : Operation} :
    Ends (checkOperation t o pos) (fun _ => True) (Reports (o.Breaks t.kinds pos)) := by
  cases o with
  | call c => exact ends_checkCall.inside .call
  | measure source target =>
    refine ((ends_isQubit t source).inside fun ⟨hplace, hreason⟩ =>
      hplace ▸ .source (.unresolved hreason)).bind fun b _ hsource => ?_
    cases b with
    | false => exact ends_found (.source (.classical hsource))
    | true =>
      refine ((ends_isQubit t target).inside fun ⟨hplace, hreason⟩ =>
        hplace ▸ .target (.unresolved hreason)).bind fun b _ htarget => ?_
      cases b with
      | false => trivial
      | true => exact ends_found (.target (.qubit htarget))
  | reset target =>
    exact (ends_resolve t target).discard.inside fun ⟨hplace, hreason⟩ => hplace ▸ .reset hreason

theorem ends_checkBarrier {operands : List Operand} :
    Ends (checkBarrier t operands pos) (fun _ => True)
      (Reports (t.kinds.BreaksBarrier operands pos)) :=
  ends_checkQubits

theorem ends_checkBodyStatement {s : BodyStatement} :
    Ends (checkBodyStatement t s) (fun _ => True) (Reports (s.Breaks t.kinds)) := by
  unfold checkBodyStatement BodyStatement.Breaks
  cases s.action with
  | call c => exact ends_checkCall
  | barrier operands => exact ends_checkBarrier

theorem ends_checkConditional {register : Operand} {value : Expr} {o : Operation}
    {operationPos : SourcePos} :
    Ends (checkConditional t register value o operationPos pos) (fun _ => True)
      (Reports (Action.Breaks t.kinds pos (.conditional register value o operationPos))) := by
  refine ((ends_isQubit t register).inside fun ⟨hplace, hreason⟩ =>
    hplace ▸ .register (.unresolved hreason)).bind fun b _ hregister => ?_
  cases b with
  | true => exact ends_found (.register (.qubit hregister))
  | false =>
    exact ((ends_checkExpr value).inside .value).bind fun _ _ _ =>
      ends_checkOperation.inside .guarded

end Check

/-! ## Places -/

/-- The variables that are passed to a gate. -/
def GateCall.variables (c : GateCall) : List Operand :=
  c.passed.flatMap Expr.variables ++ c.operands

/-- The variables of a quantum operation. -/
def Operation.variables : Operation → List Operand
  | .call c => c.variables
  | .measure source target => [source, target]
  | .reset target => [target]

/-- The positions of a statement of a gate's body and of the variables in it. -/
def BodyStatement.places (s : BodyStatement) : List SourcePos :=
  match s.action with
  | .call c => s.pos :: c.variables.map Operand.pos
  | .barrier operands => s.pos :: operands.map Operand.pos

/-- The positions of what a statement at `pos` does, of the operation that it guards and of the
variables in it. What is inside the body of a gate is left out. -/
def Action.places (pos : SourcePos) : Action → List SourcePos
  | .operation o => pos :: o.variables.map Operand.pos
  | .barrier operands => pos :: operands.map Operand.pos
  | .conditional v value o operationPos =>
    pos :: operationPos :: (v :: value.variables ++ o.variables).map Operand.pos
  | .register .. | .gate .. | .opaqueGate _ => [pos]

section Places

variable {env : Env} {pos place : SourcePos} {fault : SemanticFault}

theorem Expr.NotNumber.pos_mem {operation : String} {e : Expr}
    (h : e.NotNumber env operation fault) : e.pos ∈ e.variables.map Operand.pos := by
  cases h with
  | vector | qubit => exact List.mem_singleton_self _

theorem Expr.Breaks.place_mem {e : Expr} (h : e.Breaks env place fault) :
    place ∈ e.variables.map Operand.pos := by
  induction h with
  | operand => exact List.mem_singleton_self _
  | neg _ ih | target _ ih => exact ih
  | left _ ih =>
    rw [Expr.variables, List.map_append]
    exact List.mem_append_left _ ih
  | right _ ih =>
    rw [Expr.variables, List.map_append]
    exact List.mem_append_right _ ih
  | leftOperand h =>
    rw [Expr.variables, List.map_append]
    exact List.mem_append_left _ h.pos_mem
  | rightOperand h =>
    rw [Expr.variables, List.map_append]
    exact List.mem_append_right _ h.pos_mem
  | targetOperand h => exact h.pos_mem

theorem Operand.NotQubit.place_mem {v : Operand} {use : String → SemanticFault}
    {vs : List Operand} (h : v.NotQubit env pos use place fault) (hv : v ∈ vs) :
    place ∈ pos :: vs.map Operand.pos := by
  cases h with
  | unresolved => exact List.mem_cons_of_mem _ (List.mem_map_of_mem hv)
  | classical => exact List.mem_cons_self

theorem Operand.NotClassical.place_mem {v : Operand} {use : String → SemanticFault}
    {vs : List Operand} (h : v.NotClassical env pos use place fault) (hv : v ∈ vs) :
    place ∈ pos :: vs.map Operand.pos := by
  cases h with
  | unresolved => exact List.mem_cons_of_mem _ (List.mem_map_of_mem hv)
  | qubit => exact List.mem_cons_self

theorem GateCall.Breaks.place_mem {c : GateCall} (h : c.Breaks env pos place fault) :
    place ∈ pos :: c.variables.map Operand.pos := by
  cases h with
  | counts => exact List.mem_cons_self
  | parameter he h =>
    obtain ⟨v, hv, rfl⟩ := List.mem_map.mp h.place_mem
    refine List.mem_cons_of_mem _ (List.mem_map_of_mem ?_)
    exact List.mem_append_left _ (List.mem_flatMap_of_mem he hv)
  | operand hv h => exact h.place_mem (List.mem_append_right _ hv)

theorem Env.BreaksBarrier.place_mem {operands : List Operand}
    (h : env.BreaksBarrier operands pos place fault) :
    place ∈ pos :: operands.map Operand.pos := by
  obtain ⟨v, hv, h⟩ := h
  exact h.place_mem hv

theorem Operation.Breaks.place_mem {o : Operation} (h : o.Breaks env pos place fault) :
    place ∈ pos :: o.variables.map Operand.pos := by
  cases h with
  | call h => exact h.place_mem
  | source h => exact h.place_mem List.mem_cons_self
  | target h => exact h.place_mem (List.mem_cons_of_mem _ List.mem_cons_self)
  | reset => exact List.mem_cons_of_mem _ List.mem_cons_self

theorem BodyStatement.Breaks.place_mem {s : BodyStatement} (h : s.Breaks env place fault) :
    place ∈ s.places := by
  obtain ⟨action, pos⟩ := s
  cases action with
  | call c => exact GateCall.Breaks.place_mem h
  | barrier operands => exact Env.BreaksBarrier.place_mem h

theorem Action.Breaks.place_mem {action : Action} (h : action.Breaks env pos place fault) :
    place ∈ action.places pos := by
  cases h with
  | operation h => exact h.place_mem
  | barrier h => exact h.place_mem
  | register h =>
    have hmem := h.place_mem (List.mem_singleton_self _)
    simp only [places, List.map_cons, List.map_append, List.map_nil, List.mem_cons,
      List.mem_append, List.not_mem_nil] at hmem ⊢
    tauto
  | value h =>
    have hmem := h.place_mem
    simp only [places, List.map_cons, List.map_append, List.mem_cons, List.mem_append]
    tauto
  | guarded h =>
    have hmem := h.place_mem
    simp only [places, List.map_cons, List.map_append, List.mem_cons, List.mem_append] at hmem ⊢
    tauto

end Places

end OpenQasm
