/-!
# The exact value of a double

`Binary64.ofFloat` reads a double as the number it stands for: a finite one is exactly
`± significand * 2 ^ exponent`. Everything the project prints or compares about a double goes
through this reading, so that rounding is decided on exact integers.

* `integer?` is the integer a double equals, if there is one.
* `nearest` is the integer nearest to a double, a half going away from zero.
-/

namespace OpenQasm

/-- The number a double stands for; `finite` is `± significand * 2 ^ exponent`. -/
inductive Binary64 where
  | nan
  | infinite (negative : Bool)
  | finite (negative : Bool) (significand : Nat) (exponent : Int)
deriving DecidableEq, Repr

namespace Binary64

/-- The number with this 64-bit pattern: sign bit 63, biased exponent in bits 52 to 62. -/
def ofBits (word : Nat) : Binary64 :=
  let negative := word / Nat.pow 2 63 % 2 == 1
  let field : Nat := word / Nat.pow 2 52 % Nat.pow 2 11
  let fraction : Nat := word % Nat.pow 2 52
  if field = 2047 then
    if fraction = 0 then .infinite negative else .nan
  else if field = 0 then .finite negative fraction (-1074)
  else .finite negative (Nat.pow 2 52 + fraction) ((field : Int) - 1075)

/-- The number a double stands for. -/
def ofFloat (x : Float) : Binary64 := ofBits x.toBits.toNat

/-- The quotient `significand * 2 ^ exponent` as numerator and denominator. -/
def quotient (significand : Nat) (exponent : Int) : Nat × Nat :=
  if 0 ≤ exponent then (significand * Nat.pow 2 exponent.toNat, 1)
  else (significand, Nat.pow 2 (-exponent).toNat)

/-- The integer `magnitude`, negated if asked. -/
def signed (negative : Bool) (magnitude : Nat) : Int :=
  if negative then -(magnitude : Int) else magnitude

/-- The integer this number equals. -/
def integer? : Binary64 → Option Int
  | .finite negative significand exponent =>
    let (num, den) := quotient significand exponent
    if num % den = 0 then some (signed negative (num / den)) else none
  | _ => none

/-- The nearest integer, a half going away from zero; `0` when the number is not finite. -/
def nearest : Binary64 → Int
  | .finite negative significand exponent =>
    let (num, den) := quotient significand exponent
    signed negative ((2 * num + den) / (2 * den))
  | _ => 0

end Binary64

end OpenQasm
