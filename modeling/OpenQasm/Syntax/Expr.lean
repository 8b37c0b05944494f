import OpenQasm.Syntax.Token

/-!
# Operands and expressions

An operand is `name` or `name[index]`. It names a register, one element of it, or a formal of a
gate. Expressions compute the angles of gates and the values that conditions compare with.

* `Expr.pos` is where an expression is reported: at its first token, parentheses apart.
* `Expr.text` writes every binary operation in parentheses, so that its shape can be read off.

Model of the expressions of the syntax tree and of their texts. A negation is written without
parentheses of its own.
-/

namespace OpenQasm

/-- A name, or an element of what it names: `name` or `name[index]`. -/
structure Operand where
  name : String
  index : Option Nat
  pos : SourcePos
deriving DecidableEq, Repr

namespace Operand

/-- Whether one element is named. -/
def isIndexed (v : Operand) : Bool := v.index.isSome

/-- The operand as it is written. -/
def text (v : Operand) : String :=
  match v.index with
  | some i => v.name ++ "[" ++ toString i ++ "]"
  | none => v.name

end Operand

/-- The operators between two expressions. -/
inductive BinaryOp where
  | add | sub | mul | div | pow
deriving DecidableEq, Repr

namespace BinaryOp

/-- The mark that writes an operator. -/
def mark : BinaryOp → Mark
  | .add => .plus
  | .sub => .minus
  | .mul => .times
  | .div => .divide
  | .pow => .caret

/-- The operation's name in a diagnostic. -/
def describe : BinaryOp → String
  | .add => "Addition"
  | .sub => "Subtraction"
  | .mul => "Multiplication"
  | .div => "Division"
  | .pow => "Exponentiation"

end BinaryOp

/-- An expression over literals, `pi` and operands. -/
inductive Expr where
  | real (value : Decimal) (pos : SourcePos)
  | integer (value : Nat) (pos : SourcePos)
  | pi (pos : SourcePos)
  | operand (v : Operand)
  | neg (target : Expr) (pos : SourcePos)
  | binary (op : BinaryOp) (left right : Expr)
  | call (function : Function) (target : Expr) (pos : SourcePos)
deriving DecidableEq, Repr

namespace Expr

/-- Where an expression starts. -/
def pos : Expr → SourcePos
  | real _ p => p
  | integer _ p => p
  | pi p => p
  | operand v => v.pos
  | neg _ p => p
  | binary _ left _ => left.pos
  | call _ _ p => p

/-- An expression with every binary operation in parentheses. -/
def text : Expr → String
  | real value _ => Numeral.plainText value.toFloat
  | integer value _ => toString value
  | pi _ => "pi"
  | operand v => v.text
  | neg target _ => "-" ++ target.text
  | binary op left right => "(" ++ left.text ++ " " ++ op.mark.text ++ " " ++ right.text ++ ")"
  | call function target _ => function.name ++ "(" ++ target.text ++ ")"

end Expr

end OpenQasm
