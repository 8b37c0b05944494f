/-!
# Rounding a quotient and placing it among the powers of ten

* `roundDiv num den` is the integer nearest to `num / den`, a tie going to the even neighbour.
* `decimalPosition num den` is the number of digits before the decimal point: the least `p` with
  `num / den < 10 ^ p`.
-/

namespace OpenQasm.Numeral

/-- The integer nearest to `num / den`, a tie going to the even neighbour. -/
def roundDiv (num den : Nat) : Nat :=
  let q := num / den
  let r := num % den
  if 2 * r < den then q else if den < 2 * r then q + 1 else q + q % 2

/-- The power `10 ^ exponent` as numerator and denominator. -/
def powerOfTen (exponent : Int) : Nat × Nat :=
  if 0 ≤ exponent then (Nat.pow 10 exponent.toNat, 1) else (1, Nat.pow 10 (-exponent).toNat)

/-- Whether `num / den` lies below `10 ^ exponent`. -/
def belowPowerOfTen (num den : Nat) (exponent : Int) : Bool :=
  let (up, down) := powerOfTen exponent
  num * down < den * up

/-- The least `p` with `num / den < 10 ^ p`, for positive `num` and `den`. The search starts from
an estimate read off the binary logarithms, which is never too high by more than rounding. -/
def decimalPosition (num den : Nat) : Int :=
  let binary : Int := (num.log2 : Int) - den.log2 - 1
  let start := Int.fdiv (binary * 30103) 100000
  let step? := (List.range 5).find? fun (k : Nat) => belowPowerOfTen num den (start + k)
  start + step?.getD 0

/-- The number `digits` written with at least `width` decimal digits. -/
def padded (width digits : Nat) : String :=
  let text := toString digits
  String.ofList (List.replicate (width - text.length) '0') ++ text

end OpenQasm.Numeral
