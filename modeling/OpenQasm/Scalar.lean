import OpenQasm.Numeral.Binary64
import OpenQasm.Numeral.Decimal

/-!
# Real scalars

The simulator is written once, over any type of real scalars. `Scalar R` lists what it needs:
arithmetic and order, the functions an angle expression may call, the reading of literals, and
how a scalar compares with an integer. Doubles are the scalars that programs are run with; exact
laws are stated over the real numbers.

Operations are applied in the order in which they are written and never regrouped, since the
scalars need not obey any algebraic law.

Out of scope: how the functions of an angle expression are computed for doubles. They are those of
the C library, and no law of them is used.
-/

namespace OpenQasm

/-- What the simulator asks of its real numbers. -/
class Scalar (R : Type) extends Zero R, One R, Add R, Sub R, Mul R, Div R, Neg R, LT R, LE R,
    BEq R where
  decidableLT : DecidableLT R
  decidableLE : DecidableLE R
  sin : R → R
  cos : R → R
  tan : R → R
  exp : R → R
  ln : R → R
  sqrt : R → R
  pow : R → R → R
  pi : R
  ofNat : Nat → R
  ofDecimal : Decimal → R
  /-- Neither infinite nor undefined. -/
  isFinite : R → Bool
  /-- The integer nearest to a finite scalar, a half going away from zero. -/
  nearest : R → Int
  /-- The integer that the scalar equals, if there is one. -/
  integer? : R → Option Int

namespace Scalar

variable {R : Type} [Scalar R]

instance : DecidableLT R := Scalar.decidableLT
instance : DecidableLE R := Scalar.decidableLE

/-- Masses below this count as no probability at all. -/
def zeroMass : R := ofDecimal ⟨1, -12⟩

/-- Half of a scalar. -/
def half (x : R) : R := x / ofNat 2

/-- The absolute value. -/
def abs (x : R) : R := if x < 0 then -x else x

/-- Whether two scalars differ by at most `tolerance`. -/
def near (tolerance x y : R) : Bool := decide (abs (x - y) ≤ tolerance)

end Scalar

/-- Doubles, with the functions of the system's mathematics library. -/
instance : Scalar Float where
  zero := 0
  one := 1
  decidableLT := inferInstance
  decidableLE := inferInstance
  sin := Float.sin
  cos := Float.cos
  tan := Float.tan
  exp := Float.exp
  ln := Float.log
  sqrt := Float.sqrt
  pow := Float.pow
  pi := 3.141592653589793
  ofNat := Float.ofNat
  ofDecimal := Decimal.toFloat
  isFinite := Float.isFinite
  nearest x := (Binary64.ofFloat x).nearest
  integer? x := (Binary64.ofFloat x).integer?

end OpenQasm
