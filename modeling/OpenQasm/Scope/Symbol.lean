import OpenQasm.Syntax.Program

/-!
# Symbols

A symbol is what a name stands for in a scope: a register, a gate, or a formal of a gate.

Model of the entries of the symbol table.
-/

namespace OpenQasm

/-- What a name can stand for. -/
inductive SymbolKind where
  | register (kind : RegisterKind) (width : Nat)
  | gate (parameters arguments : Nat)
  | parameter (position : Nat)
  | argument (position : Nat)
deriving DecidableEq, Repr

/-- A name, what it stands for, and the line of its declaration. -/
structure Symbol where
  name : String
  line : Nat
  kind : SymbolKind
deriving DecidableEq, Repr

namespace SymbolKind

/-- Quantum registers and the arguments of gates are qubits. -/
def isQubit : SymbolKind → Bool
  | register kind _ => kind = .quantum
  | argument _ => true
  | gate .. | parameter _ => false

/-- A description for a listing. -/
def describe : SymbolKind → String
  | register kind width => s!"{kind.text} of width {width}"
  | gate parameters arguments =>
    s!"gate with {parameters} parameters and {arguments} arguments"
  | parameter position => s!"gate parameter #{position}"
  | argument position => s!"gate argument #{position}"

end SymbolKind

/-- Whether a symbol is a qubit. -/
def Symbol.isQubit (s : Symbol) : Bool := s.kind.isQubit

end OpenQasm
