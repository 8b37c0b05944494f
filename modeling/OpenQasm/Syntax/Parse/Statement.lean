import OpenQasm.Syntax.Parse.Expr

/-!
# Reading statements

```
statement := ("qreg" | "creg") id "[" integer "]" ";"
           | "gate" signature "{" body* "}"
           | "opaque" signature ";"
           | "barrier" operands ";"
           | "if" "(" operand "==" expression ")" operation
           | operation
body      := "barrier" operands ";" | call ";"
operation := (call | "measure" operand "->" operand | "reset" operand) ";"
call      := "U" "(" expressions ")" operands
           | ("CX" | id) ["(" [expressions] ")"] operands
signature := id ["(" [ids] ")"] ids
```
-/

namespace OpenQasm.Parse

/-- A list in parentheses, which may be empty; nothing when no parenthesis opens. -/
def parenthesized? {α : Type} (list : (ts : List Lexeme) → Reading (List α) ts)
    (ts : List Lexeme) : OptionalReading (Option (List α)) ts :=
  if peek ts = .mark .openParen then do
    let opened ← mark .openParen ts
    if peek opened.rest = .mark .closeParen then
      let closed ← mark .closeParen opened.rest
      return ⟨some [], closed.rest, by
        have := opened.shorter; have := closed.shorter; omega⟩
    else
      let items ← list opened.rest
      let closed ← mark .closeParen items.rest
      return ⟨some items.value, closed.rest, by
        have := opened.shorter; have := items.shorter; have := closed.shorter; omega⟩
  else return .unread none ts

/-! ## Quantum operations -/

/-- A call of `U`, whose parameters cannot be left out. -/
def rotationCall (ts : List Lexeme) : Reading GateCall ts := do
  let word ← exactly (.keyword .rotation) ts
  let opened ← mark .openParen word.rest
  let parameters ← expressionList opened.rest
  let closed ← mark .closeParen parameters.rest
  let operands ← operandList closed.rest
  return ⟨⟨.rotation, some parameters.value, operands.value⟩, operands.rest, by
    have := word.shorter; have := opened.shorter; have := parameters.shorter
    have := closed.shorter; have := operands.shorter; omega⟩

/-- What follows the name of any other gate. -/
def callOf (gate : GateName) (ts : List Lexeme) : Reading GateCall ts := do
  let parameters ← parenthesized? expressionList ts
  let operands ← operandList parameters.rest
  return ⟨⟨gate, parameters.value, operands.value⟩, operands.rest, by
    have := parameters.shorter; have := operands.shorter; omega⟩

/-- The name of a gate other than `U`. -/
def gateName? : Token → Option GateName
  | .keyword .controlledNot => some .controlledNot
  | .identifier name => some (.named name)
  | _ => none

/-- A gate applied to operands. -/
def call (ts : List Lexeme) : Reading GateCall ts :=
  if peek ts = .keyword .rotation then rotationCall ts
  else do
    let gate ← next .statement gateName? ts
    let called ← callOf gate.value gate.rest
    return gate.followedBy called

/-- A measurement: `measure source -> target`. -/
def measurement (ts : List Lexeme) : Reading Operation ts := do
  let word ← exactly (.keyword .measure) ts
  let source ← operand word.rest
  let arrow ← mark .arrow source.rest
  let target ← operand arrow.rest
  return ⟨.measure source.value target.value, target.rest, by
    have := word.shorter; have := source.shorter; have := arrow.shorter
    have := target.shorter; omega⟩

/-- A reset: `reset target`. -/
def resetting (ts : List Lexeme) : Reading Operation ts := do
  let word ← exactly (.keyword .reset) ts
  let target ← operand word.rest
  return ⟨.reset target.value, target.rest, by
    have := word.shorter; have := target.shorter; omega⟩

/-- A value and the semicolon after it. -/
def terminated {α : Type} {ts : List Lexeme} (reading : Reading α ts) : Reading α ts := do
  let value ← reading
  let stop ← mark .semicolon value.rest
  return ⟨value.value, stop.rest, by have := value.shorter; have := stop.shorter; omega⟩

/-- A quantum operation with its semicolon. -/
def operation (ts : List Lexeme) : Reading Operation ts :=
  terminated <|
    if peek ts = .keyword .measure then measurement ts
    else if peek ts = .keyword .reset then resetting ts
    else (call ts).map (Parsed.map .call)

/-! ## Declarations -/

/-- A barrier with its semicolon: `barrier operands;`. -/
def barrier (ts : List Lexeme) : Reading (List Operand) ts := do
  let word ← exactly (.keyword .barrier) ts
  let operands ← terminated (operandList word.rest)
  return word.followedBy operands

/-- The declaration of a register, after its keyword. -/
def register (kind : RegisterKind) (ts : List Lexeme) : Reading Action ts := do
  let name ← identifier ts
  let opened ← mark .openBracket name.rest
  let width ← integer opened.rest
  let closed ← terminated (mark .closeBracket width.rest)
  return ⟨.register kind name.value width.value, closed.rest, by
    have := name.shorter; have := opened.shorter; have := width.shorter
    have := closed.shorter; omega⟩

/-- The name and the formals of a gate. -/
def signature (ts : List Lexeme) : Reading Signature ts := do
  let name ← identifier ts
  let parameters ← parenthesized? identifierList name.rest
  let arguments ← identifierList parameters.rest
  return ⟨⟨name.value, parameters.value, arguments.value⟩, arguments.rest, by
    have := name.shorter; have := parameters.shorter; have := arguments.shorter; omega⟩

/-- A statement of a gate's body. -/
def bodyStatement (ts : List Lexeme) : Reading BodyStatement ts :=
  match peek ts with
  | .keyword .barrier => (barrier ts).map (Parsed.map fun operands => ⟨.barrier operands, here ts⟩)
  | .keyword .rotation | .keyword .controlledNot | .identifier _ =>
    (terminated (call ts)).map (Parsed.map fun c => ⟨.call c, here ts⟩)
  | .endOfFile => .error (unexpected (.token (.mark .closeBrace)) ts)
  | token => .error ⟨.notInGateBody token, here ts⟩

/-- The statements of a gate's body, up to and with the closing brace. -/
def body (ts : List Lexeme) : Reading (List BodyStatement) ts :=
  if peek ts = .mark .closeBrace then do
    let closed ← mark .closeBrace ts
    return closed.map fun _ => []
  else do
    let first ← bodyStatement ts
    let others ← body first.rest
    return ⟨first.value :: others.value, others.rest, by
      have := first.shorter; have := others.shorter; omega⟩
termination_by ts.length
decreasing_by exact first.shorter

/-- The definition of a gate, after its keyword. -/
def gateDefinition (ts : List Lexeme) : Reading Action ts := do
  let signature ← signature ts
  let opened ← mark .openBrace signature.rest
  let statements ← body opened.rest
  return ⟨.gate signature.value statements.value, statements.rest, by
    have := signature.shorter; have := opened.shorter; have := statements.shorter; omega⟩

/-- A condition and the operation that it guards, after the keyword. -/
def conditional (ts : List Lexeme) : Reading Action ts := do
  let opened ← mark .openParen ts
  let register ← operand opened.rest
  let equal ← mark .equal register.rest
  let value ← expression equal.rest
  let closed ← mark .closeParen value.rest
  let guarded ← operation closed.rest
  return ⟨.conditional register.value value.value guarded.value (here closed.rest), guarded.rest,
    by have := opened.shorter; have := register.shorter; have := equal.shorter
       have := value.shorter; have := closed.shorter; have := guarded.shorter; omega⟩

/-- The action that a keyword introduces, read after it. -/
def introduced? : Token → Option ((ts : List Lexeme) → Reading Action ts)
  | .keyword .qreg => some (register .quantum)
  | .keyword .creg => some (register .classical)
  | .keyword .gate => some gateDefinition
  | .keyword .opaqueGate => some fun ts => (terminated (signature ts)).map (Parsed.map .opaqueGate)
  | .keyword .barrier => some fun ts => (terminated (operandList ts)).map (Parsed.map .barrier)
  | .keyword .ifEqual => some conditional
  | _ => none

/-- A statement. -/
def statement (ts : List Lexeme) : Reading Statement ts :=
  match ts with
  | [] => .error (unexpected .statement [])
  | l :: rest =>
    match introduced? l.token with
    | some read => do
      let action ← read rest
      return ⟨⟨action.value, l.pos⟩, action.rest, by
        have := action.shorter; simp only [List.length_cons]; omega⟩
    | none => (operation (l :: rest)).map (Parsed.map fun o => ⟨.operation o, l.pos⟩)

end OpenQasm.Parse
