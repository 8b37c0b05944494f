import OpenQasm.Scope.SymbolTable
import OpenQasm.Scope.Error

/-!
# Checking programs

A program is checked in two passes over a symbol table.

* The declaration pass (`declareAll`) binds every register and every gate in the global scope and
  saves, under each gate's name, the scope of its formals.
* The verification pass (`verifyAll`) checks every statement. The body of a gate is checked in the
  scope saved for the gate, so it may use names that are declared later.

Both passes stop at the first error. A declaration that fails inside a gate's scope leaves that
scope open, so both answer the table that they end with also when they fail.

Model of the semantic checker, whose rules, order of checks and texts these are. Out of scope, since
it leaves them to the run: whether a gate leads back to itself or to an opaque one, whether the
qubits of a call differ, whether values are finite, and whether there is room for what is declared.
-/

namespace OpenQasm

/-- What a pass answers: how it ended, and the table it leaves. -/
abbrev Pass := Except SemanticError Unit × SymbolTable

namespace Check

/-! ## Declaring -/

/-- Bind a name that is not bound in the current scope. -/
def declare (t : SymbolTable) (name : String) (kind : SymbolKind) (pos : SourcePos) : Pass :=
  match t.lookupHere? name with
  | some old => (.error (.found pos (.redeclared name old.line)), t)
  | none =>
    match t.declare ⟨name, pos.line, kind⟩ with
    | .ok (_, after) => (.ok (), after)
    | .error symbol => (.error (.found pos (.noOpenScope symbol.name)), t)

/-- Bind names to what stands for their positions, counted from `position`. -/
def declareFormals (kind : Nat → SymbolKind) (pos : SourcePos) :
    Nat → List String → SymbolTable → Pass
  | _, [], t => (.ok (), t)
  | position, name :: names, t =>
    match declare t name (kind position) pos with
    | (.ok (), after) => declareFormals kind pos (position + 1) names after
    | failed => failed

/-- Bind a gate, and save the scope of its formals under its name. -/
def declareGate (t : SymbolTable) (s : Signature) (pos : SourcePos) : Pass :=
  match declare t s.name (.gate s.formals.length s.arguments.length) pos with
  | (.ok (), bound) =>
    match declareFormals .parameter pos 0 s.formals bound.push.2 with
    | (.ok (), t) =>
      match declareFormals .argument pos 0 s.arguments t with
      | (.ok (), t) => (.ok (), t.popAndSave s.name)
      | failed => failed
    | failed => failed
  | failed => failed

/-- Bind what a statement declares. -/
def declareStatement (t : SymbolTable) (s : Statement) : Pass :=
  match s.action with
  | .register kind name width =>
    if width = 0 then (.error (.found s.pos (.emptyRegister name)), t)
    else declare t name (.register kind width) s.pos
  | .gate signature _ | .opaqueGate signature => declareGate t signature s.pos
  | .operation _ | .barrier _ | .conditional .. => (.ok (), t)

/-! ## Operands and expressions -/

/-- The symbol of an operand: a register, with its index in range, or a formal. -/
def resolve (t : SymbolTable) (v : Operand) : Except SemanticError Symbol :=
  match t.lookup? v.name with
  | none => .error (.found v.pos (.undefinedVariable v.name))
  | some symbol =>
    match symbol.kind, v.index with
    | .register _ width, some index =>
      if width ≤ index then .error (.found v.pos (.indexOutOfRange v.name width index))
      else .ok symbol
    | .gate .., _ => .error (.found v.pos (.notAVariable v.name symbol.line))
    | _, _ => .ok symbol

/-- Whether an operand is a qubit. -/
def isQubit (t : SymbolTable) (v : Operand) : Except SemanticError Bool :=
  (resolve t v).map Symbol.isQubit

/-- Whether an operand is a single number or bit: an element of a register, or a formal without
an index. -/
def isScalar (t : SymbolTable) (v : Operand) : Except SemanticError Bool := do
  let symbol ← resolve t v
  return match symbol.kind with
    | .register .. => v.isIndexed
    | _ => !v.isIndexed

/-- What arithmetic is done with must be a number: no whole register and no qubit. -/
def checkArithmetic (t : SymbolTable) (operation : String) (e : Expr) :
    Except SemanticError Unit :=
  match e with
  | .operand v => do
    if !(← isScalar t v) then throw (.found e.pos (.vectorOperand operation e))
    if ← isQubit t v then throw (.found e.pos (.qubitOperand operation e))
  | _ => .ok ()

/-- Every operand of an expression must resolve, and arithmetic be done with numbers. -/
def checkExpr (t : SymbolTable) : Expr → Except SemanticError Unit
  | .real .. | .integer .. | .pi _ => .ok ()
  | .operand v => do discard (resolve t v)
  | .neg target _ => checkExpr t target
  | .binary op left right => do
    checkExpr t left
    checkExpr t right
    checkArithmetic t op.describe left
    checkArithmetic t op.describe right
  | .call _ target _ => do
    checkExpr t target
    checkArithmetic t "Unary" target

/-! ## Statements -/

/-- Every operand must be a qubit; `fault` tells what is wrong with one that is not. -/
def checkQubits (t : SymbolTable) (pos : SourcePos) (fault : String → SemanticFault)
    (operands : List Operand) : Except SemanticError Unit :=
  operands.forM fun v => do
    if !(← isQubit t v) then throw (.found pos (fault v.name))

/-- The number of operands must be the one expected. -/
def checkArguments (c : GateCall) (expected : Nat) (pos : SourcePos) : Except SemanticError Unit :=
  if c.operands.length = expected then .ok ()
  else .error (.found pos (.argumentCount c.gate.text expected c.operands.length))

/-- The gate must exist and be given as many parameters and operands as it declares. -/
def checkArity (t : SymbolTable) (c : GateCall) (pos : SourcePos) : Except SemanticError Unit :=
  match c.gate with
  | .rotation =>
    if c.passed.length = 3 then checkArguments c 1 pos
    else .error (.found pos (.rotationParameterCount c.passed.length))
  | .controlledNot =>
    if c.passed.length = 0 then checkArguments c 2 pos
    else .error (.found pos (.controlledNotParameterCount c.passed.length))
  | .named name =>
    match t.lookup? name with
    | none => .error (.found pos (.undefinedOperator name))
    | some symbol =>
      match symbol.kind with
      | .gate parameters arguments =>
        if c.passed.length = parameters then checkArguments c arguments pos
        else .error (.found pos (.parameterCount name parameters (c.parameters.map List.length)))
      | _ => .error (.found pos (.notAnOperator name symbol.line))

/-- A gate call. -/
def checkCall (t : SymbolTable) (c : GateCall) (pos : SourcePos) : Except SemanticError Unit := do
  checkArity t c pos
  c.passed.forM (checkExpr t)
  checkQubits t pos .argumentNotQubit c.operands

/-- A quantum operation. -/
def checkOperation (t : SymbolTable) (o : Operation) (pos : SourcePos) :
    Except SemanticError Unit :=
  match o with
  | .call c => checkCall t c pos
  | .measure source target => do
    if !(← isQubit t source) then throw (.found pos (.sourceNotQubit source.name))
    if ← isQubit t target then throw (.found pos (.targetNotClassical target.name))
  | .reset target => do discard (resolve t target)

/-- A barrier. -/
def checkBarrier (t : SymbolTable) (operands : List Operand) (pos : SourcePos) :
    Except SemanticError Unit :=
  checkQubits t pos .barrierNotQubit operands

/-- A statement of a gate's body. -/
def checkBodyStatement (t : SymbolTable) (s : BodyStatement) : Except SemanticError Unit :=
  match s.action with
  | .call c => checkCall t c s.pos
  | .barrier operands => checkBarrier t operands s.pos

/-- A condition and the operation that it guards. -/
def checkConditional (t : SymbolTable) (register : Operand) (value : Expr) (o : Operation)
    (operationPos pos : SourcePos) : Except SemanticError Unit := do
  if ← isQubit t register then throw (.found pos (.conditionOnQubit register.name))
  checkExpr t value
  checkOperation t o operationPos

/-- The body of a gate, checked in the scope saved for it. -/
def verifyGate (t : SymbolTable) (s : Signature) (body : List BodyStatement) (pos : SourcePos) :
    Pass :=
  match t.restore? s.name with
  | none => (.error (.found pos (.noSavedScope s.name)), t)
  | some inner =>
    ((body.forM (checkBodyStatement inner)).mapError (.within pos), inner.popAndSave s.name)

/-- A statement. -/
def verifyStatement (t : SymbolTable) (s : Statement) : Pass :=
  match s.action with
  | .register .. | .opaqueGate _ => (.ok (), t)
  | .gate signature body => verifyGate t signature body s.pos
  | .operation o => (checkOperation t o s.pos, t)
  | .barrier operands => (checkBarrier t operands s.pos, t)
  | .conditional register value o operationPos =>
    (checkConditional t register value o operationPos s.pos, t)

/-- Run a pass over statements up to the first that fails. -/
def passAll (pass : SymbolTable → Statement → Pass) : SymbolTable → List Statement → Pass
  | t, [] => (.ok (), t)
  | t, s :: rest =>
    match pass t s with
    | (.ok (), after) => passAll pass after rest
    | failed => failed

/-- The declaration pass. -/
def declareAll (t : SymbolTable) (p : Program) : Pass := passAll declareStatement t p.statements

/-- The verification pass. -/
def verifyAll (t : SymbolTable) (p : Program) : Pass := passAll verifyStatement t p.statements

/-- A table whose global scope is open and empty. -/
def globalScope : SymbolTable := SymbolTable.empty.push.2

end Check

/-- Check a program. Answers the table of its declarations. -/
def Program.check (p : Program) : Except SemanticError SymbolTable :=
  match Check.declareAll Check.globalScope p with
  | (.error e, _) => .error e
  | (.ok (), declared) =>
    match Check.verifyAll declared p with
    | (.error e, _) => .error e
    | (.ok (), t) => .ok t

end OpenQasm
