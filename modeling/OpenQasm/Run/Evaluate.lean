import OpenQasm.Quantum.Error
import OpenQasm.Scalar

/-!
# Evaluating expressions

Every subexpression must have a finite value; the innermost one that has none is blamed. Operands
are looked up by name among the bindings, whatever their index.

Model of how the executor evaluates the parameters of gates and the values of conditions. Out of
scope: how deep an expression may be nested before there is no more stack.
-/

namespace OpenQasm

/-- The values of gate parameters; where a name is bound twice, the first binding counts. -/
abbrev Bindings (R : Type) := List (String × R)

namespace Bindings

/-- Bind names to values in order; a later binding of a name hides an earlier one. -/
def ofLists {R : Type} (names : List String) (values : List R) : Bindings R :=
  (names.zip values).reverse

end Bindings

variable {R : Type} [Scalar R]

/-- The value of an operation on two scalars. -/
def BinaryOp.apply (op : BinaryOp) (x y : R) : R :=
  match op with
  | .add => x + y
  | .sub => x - y
  | .mul => x * y
  | .div => x / y
  | .pow => Scalar.pow x y

/-- The value of a function. -/
def Function.apply (f : Function) (x : R) : R :=
  match f with
  | .sin => Scalar.sin x
  | .cos => Scalar.cos x
  | .tan => Scalar.tan x
  | .exp => Scalar.exp x
  | .ln => Scalar.ln x
  | .sqrt => Scalar.sqrt x

namespace Expr

/-- A value that must be finite; `e` is blamed for one that is not. -/
def finite (e : Expr) (x : R) : Except RunError R :=
  if Scalar.isFinite x then .ok x else .error ⟨.notANumber e, some e.pos⟩

/-- The value of an expression. -/
def evaluate (bindings : Bindings R) : Expr → Except RunError R
  | e@(.real value _) => e.finite (Scalar.ofDecimal value)
  | e@(.integer value _) => e.finite (Scalar.ofNat value)
  | e@(.pi _) => e.finite Scalar.pi
  | e@(.operand v) =>
    match bindings.lookup v.name with
    | some x => e.finite x
    | none => .error (.bare (.unboundParameter v))
  | e@(.neg target _) => do e.finite (-(← evaluate bindings target))
  | e@(.binary op left right) => do
    let x ← evaluate bindings left
    let y ← evaluate bindings right
    e.finite (op.apply x y)
  | e@(.call function target _) => do e.finite (function.apply (← evaluate bindings target))

end Expr

end OpenQasm
