import OpenQasm.Numeral.Binary64
import OpenQasm.Numeral.Rounding

/-!
# The shortest decimal that reads back

A double is printed with the fewest significant digits that a correct reader rounds back to it;
among those the decimal nearest to the double, an exact tie going up.

* `roundingInterval` holds the reals that round to the double, as multiples of a quarter of its
  last place; its ends belong to it when the significand is even.
* `shortest` tries the two neighbours of the double on the decimal grids of 1, 2, ... 17 digits.
* `plainText` writes a double positionally, never in scientific notation and without `.0`.

Model of how a double is written in the texts of tokens, expressions and errors.
-/

namespace OpenQasm.Numeral

/-- The number `digits * 10 ^ exponent`. -/
structure DecimalGrid where
  digits : Nat
  exponent : Int
deriving DecidableEq, Repr

/-- Drop the trailing zeros of the digits, at most `fuel` of them. -/
def DecimalGrid.trim : Nat → DecimalGrid → DecimalGrid
  | 0, d => d
  | fuel + 1, d =>
    if d.digits ≠ 0 ∧ d.digits % 10 = 0 then trim fuel ⟨d.digits / 10, d.exponent + 1⟩ else d

/-- The reals rounding to `significand * 2 ^ exponent`, in quarters of the last place. The gap
below a power of two is half the gap above it. -/
def roundingInterval (significand : Nat) (exponent : Int) : Nat × Nat :=
  let below := if significand = Nat.pow 2 52 ∧ -1074 < exponent then 1 else 2
  (4 * significand - below, 4 * significand + 2)

/-- The neighbour of `m * 2 ^ exponent` with unit `10 ^ unit` that reads back. -/
def neighbour? (m : Nat) (exponent unit : Int) : Option Nat :=
  let (low, high) := roundingInterval m exponent
  let (twoUp, twoDown) := Binary64.quotient 1 (exponent - 2)
  let (tenUp, tenDown) := powerOfTen unit
  let grid := tenUp * twoDown
  let quarter := twoUp * tenDown
  let reads (c : Nat) : Bool :=
    if m % 2 = 0 then low * quarter ≤ c * grid && c * grid ≤ high * quarter
    else low * quarter < c * grid && c * grid < high * quarter
  let floor := 4 * m * quarter / grid
  let upper := floor + 1
  match reads floor, reads upper with
  | false, false => none
  | true, false => some floor
  | false, true => some upper
  | true, true =>
    if 4 * m * quarter - floor * grid < upper * grid - 4 * m * quarter then some floor
    else some upper

/-- The shortest decimal that rounds to `significand * 2 ^ exponent`, for a positive one. -/
def shortest (significand : Nat) (exponent : Int) : DecimalGrid :=
  let (num, den) := Binary64.quotient significand exponent
  let position := decimalPosition num den
  let attempt (count : Nat) : Option DecimalGrid :=
    (neighbour? significand exponent (position - count)).map fun digits =>
      ⟨digits, position - count⟩
  match (List.range 17).findSome? fun k => attempt (k + 1) with
  | some d => d.trim 18
  | none => ⟨num / den, 0⟩

/-- The digits of a decimal with the point put in its place. -/
def DecimalGrid.positional (d : DecimalGrid) : String :=
  if 0 ≤ d.exponent then toString (d.digits * Nat.pow 10 d.exponent.toNat)
  else
    let places := (-d.exponent).toNat
    let unit := Nat.pow 10 places
    toString (d.digits / unit) ++ "." ++ padded places (d.digits % unit)

/-- A sign in front of a text. -/
def withSign (negative : Bool) (text : String) : String :=
  if negative then "-" ++ text else text

/-- A double as the shortest positional decimal that reads back as it. -/
def plainText (x : Float) : String :=
  match Binary64.ofFloat x with
  | .nan => "NaN"
  | .infinite negative => withSign negative "inf"
  | .finite negative 0 _ => withSign negative "0"
  | .finite negative significand exponent =>
    withSign negative (shortest significand exponent).positional

end OpenQasm.Numeral
