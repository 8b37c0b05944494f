import OpenQasm.Syntax.Program

/-!
# Semantic errors

A semantic error is a cause, the position at fault, and the positions of the declarations around
it, the innermost first.

Model of the errors of the checker and of their texts.
-/

namespace OpenQasm

/-- The kinds of semantic errors. -/
inductive SemanticKind where
  | redeclaration
  | undefinedSymbol
  | kindMismatch
  | arityMismatch
  | indexOutOfRange
  | emptyRegister
  | internal
deriving DecidableEq, Repr

/-- What breaks a rule. -/
inductive SemanticFault where
  | redeclared (name : String) (line : Nat)
  | noOpenScope (name : String)
  | noSavedScope (gate : String)
  | emptyRegister (name : String)
  | undefinedOperator (name : String)
  | undefinedVariable (name : String)
  | notAnOperator (name : String) (line : Nat)
  | notAVariable (name : String) (line : Nat)
  | parameterCount (gate : String) (expected : Nat) (passed : Option Nat)
  | rotationParameterCount (passed : Nat)
  | controlledNotParameterCount (passed : Nat)
  | argumentCount (gate : String) (expected passed : Nat)
  | indexOutOfRange (name : String) (width index : Nat)
  | conditionOnQubit (name : String)
  | sourceNotQubit (name : String)
  | targetNotClassical (name : String)
  | barrierNotQubit (name : String)
  | argumentNotQubit (name : String)
  | vectorOperand (operation : String) (operand : Expr)
  | qubitOperand (operation : String) (operand : Expr)
deriving DecidableEq, Repr

namespace SemanticFault

/-- The kind of a fault. -/
def kind : SemanticFault → SemanticKind
  | redeclared .. => .redeclaration
  | noOpenScope _ | noSavedScope _ => .internal
  | emptyRegister _ => .emptyRegister
  | undefinedOperator _ | undefinedVariable _ => .undefinedSymbol
  | notAnOperator .. | notAVariable .. => .kindMismatch
  | parameterCount .. | rotationParameterCount _ | controlledNotParameterCount _
  | argumentCount .. => .arityMismatch
  | indexOutOfRange .. => .indexOutOfRange
  | conditionOnQubit _ | sourceNotQubit _ | targetNotClassical _ | barrierNotQubit _
  | argumentNotQubit _ | vectorOperand .. | qubitOperand .. => .kindMismatch

/-- The text of a fault, without its position. -/
def message : SemanticFault → String
  | redeclared name line => s!"{name} has already been declared in line {line}"
  | noOpenScope name => s!"no open scope to declare {name} in"
  | noSavedScope gate => s!"no saved scope for gate {gate}"
  | emptyRegister name => s!"Register {name} must have at least one element"
  | undefinedOperator name => s!"Operator {name} is not defined"
  | undefinedVariable name => s!"Variable {name} is not defined"
  | notAnOperator name line =>
    s!"Cannot use symbol {name}, declared in line {line}, as an operator"
  | notAVariable name line => s!"Cannot use symbol {name}, declared in line {line}, as a variable"
  | parameterCount gate expected none =>
    s!"Operator {gate} expected {expected} parameters, but no parameters were passed"
  | parameterCount gate expected (some passed) =>
    s!"Operator {gate} expected {expected} parameters, but {passed} parameters were passed"
  | rotationParameterCount passed =>
    s!"Operator U expects 3 parameters, but {passed} parameters were passed"
  | controlledNotParameterCount passed =>
    s!"Operator CX expects no parameters, but {passed} parameters were passed"
  | argumentCount gate expected passed =>
    s!"Operator {gate} expected {expected} arguments, but {passed} arguments were passed"
  | indexOutOfRange name width index =>
    s!"Variable {name} is vector of dimension {width} and cannot be indexed at {index}"
  | conditionOnQubit name =>
    s!"the register '{name}' compared in an if statement must be a cbit"
  | sourceNotQubit name => s!"the source '{name}' of the measure operation must be a qubit"
  | targetNotClassical name => s!"the target '{name}' of the measure operation must be a cbit"
  | barrierNotQubit name => s!"the operand '{name}' of the barrier must be a qubit"
  | argumentNotQubit name => s!"{name} is not a qubit. Operator arguments must be qubits"
  | vectorOperand operation operand =>
    operation ++ " operations cannot be performed on vectors. " ++ operand.text ++ " is a vector"
  | qubitOperand operation operand =>
    operation ++ " operations cannot be performed on qubits. " ++ operand.text ++ " is a qubit"

end SemanticFault

/-- A fault, where it is, and the declarations around it, innermost first. -/
structure SemanticError where
  fault : SemanticFault
  pos : SourcePos
  trace : List SourcePos
deriving DecidableEq, Repr

namespace SemanticError

/-- A fault outside of any declaration. -/
def found (pos : SourcePos) (fault : SemanticFault) : SemanticError := ⟨fault, pos, []⟩

/-- The same error inside a declaration. -/
def within (pos : SourcePos) (e : SemanticError) : SemanticError :=
  { e with trace := e.trace ++ [pos] }

/-- The text of an error, its position in front. -/
def message (e : SemanticError) : String := e.pos.label e.fault.message

end SemanticError

end OpenQasm
