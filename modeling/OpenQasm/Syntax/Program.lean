import OpenQasm.Syntax.Expr

/-!
# Programs

The syntax of a program, shaped so that what the grammar excludes cannot be written: the body of
a gate holds only gate calls and barriers, and a condition guards one quantum operation.

Model of the syntax tree, and of the positions that its errors are reported at.
-/

namespace OpenQasm

/-- The gate that a call names. -/
inductive GateName where
  | rotation
  | controlledNot
  | named (name : String)
deriving DecidableEq, Repr

/-- A gate's name as it is written. -/
def GateName.text : GateName → String
  | .rotation => Keyword.rotation.text
  | .controlledNot => Keyword.controlledNot.text
  | .named name => name

/-- A gate applied to operands. `parameters` is absent when no parentheses are written. -/
structure GateCall where
  gate : GateName
  parameters : Option (List Expr)
  operands : List Operand
deriving DecidableEq, Repr

namespace GateCall

/-- The parameters that are passed. -/
def passed (c : GateCall) : List Expr := c.parameters.getD []

end GateCall

/-- A quantum operation: what may stand under a condition. -/
inductive Operation where
  | call (call : GateCall)
  | measure (source target : Operand)
  | reset (target : Operand)
deriving DecidableEq, Repr

/-- What may stand in the body of a gate. -/
inductive BodyAction where
  | call (call : GateCall)
  | barrier (operands : List Operand)
deriving DecidableEq, Repr

/-- A statement of a gate's body. -/
structure BodyStatement where
  action : BodyAction
  pos : SourcePos
deriving DecidableEq, Repr

/-- The two kinds of registers. -/
inductive RegisterKind where
  | quantum
  | classical
deriving DecidableEq, Repr

/-- The keyword that declares a register. -/
def RegisterKind.text : RegisterKind → String
  | .quantum => Keyword.qreg.text
  | .classical => Keyword.creg.text

/-- The name and the formals of a gate. `parameters` is absent when no parentheses are written. -/
structure Signature where
  name : String
  parameters : Option (List String)
  arguments : List String
deriving DecidableEq, Repr

namespace Signature

/-- The names of the parameters. -/
def formals (s : Signature) : List String := s.parameters.getD []

end Signature

/-- What a statement does. -/
inductive Action where
  | register (kind : RegisterKind) (name : String) (width : Nat)
  | gate (signature : Signature) (body : List BodyStatement)
  | opaqueGate (signature : Signature)
  | operation (operation : Operation)
  | barrier (operands : List Operand)
  | conditional (register : Operand) (value : Expr) (operation : Operation)
      (operationPos : SourcePos)
deriving DecidableEq, Repr

/-- A statement. -/
structure Statement where
  action : Action
  pos : SourcePos
deriving DecidableEq, Repr

/-- An include directive. -/
structure Include where
  path : String
  pos : SourcePos
deriving DecidableEq, Repr

/-- The content of one source text. -/
structure Program where
  file : String
  version : Decimal
  includes : List Include
  statements : List Statement
deriving DecidableEq, Repr

end OpenQasm
