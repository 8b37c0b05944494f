import OpenQasm.Linear.Error
import OpenQasm.Syntax.Program

/-!
# Errors of running a program

A run fails with a fault and, once a statement or expression has been blamed, its position. The
innermost position is kept: `RunError.located` adds one only where there is none.

Model of the errors of a run and of their texts. As with the errors of the algebra, `unaddressable`
is no answer of the simulator, which stops when it asks for the memory of such a register.
-/

namespace OpenQasm

/-- Sizes that do not fit together. -/
inductive SizeFault where
  | measureWidths (width : Nat) (source : String) (targetWidth : Nat) (target : String)
  | measureMixed (source target : Operand)
  | broadcast (gate : GateName)
  | rotationParameters (passed : Nat)
  | gateParameters (gate : String) (expected passed : Nat)
  | qubitOutside (qubit qubits : Nat)
  | operatorWidth (dimension qubits : Nat)
deriving DecidableEq, Repr

/-- Why a run fails. -/
inductive RunFault where
  | algebra (error : AlgebraError)
  | undefinedRegister (name : String)
  | duplicateRegister (name : String)
  | emptyRegister (name : String)
  | undefinedGate (name : String)
  | opaqueGate (name : String)
  | recursiveGate (name : String)
  | indexOutOfRange (name : String) (index width : Nat)
  | sizeMismatch (fault : SizeFault)
  | duplicateQubit (qubit : Nat)
  | tooManyQubits (requested limit : Nat)
  | unaddressable (name : String) (width : Nat)
  | unboundParameter (operand : Operand)
  | notANumber (expression : Expr)
deriving DecidableEq, Repr

/-- The text of a size fault. -/
def SizeFault.message : SizeFault → String
  | measureWidths width source targetWidth target =>
    s!"cannot measure {width} qubits of {source} into {targetWidth} bits of {target}"
  | measureMixed source target =>
    "measure " ++ source.text ++ " -> " ++ target.text
      ++ " mixes a whole register with a single bit"
  | broadcast gate => "registers passed to " ++ gate.text ++ " have different sizes"
  | rotationParameters passed => s!"U takes 3 parameters, got {passed}"
  | gateParameters gate expected passed => s!"{gate} takes {expected} parameters, got {passed}"
  | qubitOutside qubit qubits => s!"qubit {qubit} outside a {qubits}-qubit state"
  | operatorWidth dimension qubits =>
    s!"a {dimension}x{dimension} operator cannot act on {qubits} qubits"

/-- The text of a fault, without its position. -/
def RunFault.message : RunFault → String
  | algebra error => error.message
  | undefinedRegister name => s!"register {name} is not defined"
  | duplicateRegister name => s!"register {name} has already been declared"
  | emptyRegister name => s!"register {name} must have at least one bit"
  | undefinedGate name => s!"gate {name} is not defined"
  | opaqueGate name => s!"gate {name} is opaque and cannot be simulated"
  | recursiveGate name => s!"gate {name} instantiates itself"
  | indexOutOfRange name index width =>
    s!"register {name} of width {width} cannot be indexed at {index}"
  | sizeMismatch fault => "size mismatch: " ++ fault.message
  | duplicateQubit qubit => s!"qubit at bit {qubit} is used more than once in the same operation"
  | tooManyQubits requested limit =>
    s!"declaring {requested} qubits exceeds the limit of {limit}"
  | unaddressable name width =>
    s!"register {name} of width {width} has no place in an address space"
  | unboundParameter operand => "parameter " ++ operand.text ++ " is not bound"
  | notANumber expression =>
    "expression " ++ expression.text ++ " does not evaluate to a finite number"

/-- A fault and the position it is blamed on. -/
structure RunError where
  fault : RunFault
  pos : Option SourcePos
deriving DecidableEq, Repr

namespace RunError

/-- A fault that no position is known for yet. -/
def bare (fault : RunFault) : RunError := ⟨fault, none⟩

/-- Blame a position, unless one is blamed already. -/
def located (pos : SourcePos) (e : RunError) : RunError := ⟨e.fault, e.pos <|> some pos⟩

/-- The text of an error, its position in front. -/
def message (e : RunError) : String :=
  match e.pos with
  | some pos => pos.label e.fault.message
  | none => e.fault.message

end RunError

end OpenQasm
