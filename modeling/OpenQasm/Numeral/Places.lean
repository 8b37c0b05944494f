import OpenQasm.Numeral.Binary64
import OpenQasm.Numeral.Rounding

/-!
# A fixed number of places or of significant digits

Both texts round the exact binary value, a tie going to the even digit.

* `fixedText places plus x` has `places` digits after the point, and a `+` for a number without
  a minus sign when `plus` is set.
* `scientificText digits x` has one digit before the point and `digits - 1` after it.

Model of how the numbers of a listing are written.
-/

namespace OpenQasm.Numeral

/-- The sign written in front of a number. -/
def signText (plus negative : Bool) : String :=
  if negative then "-" else if plus then "+" else ""

/-- A double with `places` digits after the point. -/
def fixedText (places : Nat) (plus : Bool) (x : Float) : String :=
  match Binary64.ofFloat x with
  | .nan => "NaN"
  | .infinite negative => signText plus negative ++ "inf"
  | .finite negative significand exponent =>
    let (num, den) := Binary64.quotient significand exponent
    let unit := Nat.pow 10 places
    let scaled := roundDiv (num * unit) den
    signText plus negative ++ toString (scaled / unit) ++ "." ++ padded places (scaled % unit)

/-- A positive quotient with `digits` significant digits, in scientific notation. -/
def scientificQuotient (digits num den : Nat) : String :=
  let position := decimalPosition num den
  let (up, down) := powerOfTen (position - digits)
  let rounded := roundDiv (num * down) (den * up)
  let unit := Nat.pow 10 (digits - 1)
  let (shown, place) :=
    if rounded = 10 * unit then (unit, position + 1) else (rounded, position)
  toString (shown / unit) ++ "." ++ padded (digits - 1) (shown % unit) ++ "e"
    ++ toString (place - 1)

/-- A double with `digits` significant digits, in scientific notation; zero is `0`. -/
def scientificText (digits : Nat) (x : Float) : String :=
  match Binary64.ofFloat x with
  | .nan => "nan"
  | .infinite negative => signText false negative ++ "inf"
  | .finite _ 0 _ => "0"
  | .finite negative significand exponent =>
    let (num, den) := Binary64.quotient significand exponent
    signText false negative ++ scientificQuotient digits num den

end OpenQasm.Numeral
