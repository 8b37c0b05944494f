/-!
# Decimal numerals

A real literal is kept as the exact decimal it writes, `significand * 10 ^ exponent`, and is
rounded to a double only where a double is asked for.

* `Decimal.toFloat` is the nearest double; magnitudes far outside the range of doubles are
  answered at once, so that an exponent of any size costs nothing.
* `Numeral.Parts` is the shape of a written numeral: whole digits, fraction, exponent.

Model of how a real literal is read as a double. Out of scope: the texts `inf` and `nan`, which are
no literals of the language.
-/

namespace OpenQasm

/-- The exact number `significand * 10 ^ exponent`. -/
structure Decimal where
  significand : Nat
  exponent : Int
deriving DecidableEq, Repr, Inhabited

namespace Decimal

/-- The double nearest to a decimal, a tie going to the even significand. -/
def toFloat (d : Decimal) : Float :=
  let magnitude := d.exponent + (toString d.significand).length
  if d.significand = 0 ∨ magnitude < -400 then 0
  else if 400 < magnitude then 1.0 / 0.0
  else if d.exponent < 0 then Float.ofScientific d.significand true (-d.exponent).toNat
  else Float.ofScientific d.significand false d.exponent.toNat

end Decimal

namespace Numeral

/-- Whether a character is one of the digits `0` to `9`. -/
def isDigit (c : Char) : Bool := '0' ≤ c && c ≤ '9'

/-- The number a list of digits writes. -/
def natOfDigits (digits : List Char) : Nat :=
  digits.foldl (fun n c => 10 * n + (c.toNat - '0'.toNat)) 0

/-- The exponent part of a numeral: its sign, if one is written, and its digits. -/
structure ExponentPart where
  sign : Option Char
  digits : List Char
deriving DecidableEq, Repr

namespace ExponentPart

/-- The exponent it writes. -/
def value (e : ExponentPart) : Int :=
  if e.sign = some '-' then -(natOfDigits e.digits : Int) else natOfDigits e.digits

/-- Its characters, the letter written `e`. -/
def text (e : ExponentPart) : List Char := 'e' :: (e.sign.toList ++ e.digits)

end ExponentPart

/-- The parts of a written numeral. Either the whole part or the fraction has a digit. -/
structure Parts where
  whole : List Char
  fraction : Option (List Char)
  exponent : Option ExponentPart
deriving DecidableEq, Repr

namespace Parts

/-- The characters of the numeral, the exponent letter written `e`. -/
def text (p : Parts) : String :=
  String.ofList <| p.whole
    ++ (match p.fraction with | some f => '.' :: f | none => [])
    ++ (match p.exponent with | some e => e.text | none => [])

/-- Whether a fraction or an exponent makes the numeral real. -/
def isReal (p : Parts) : Bool := p.fraction.isSome || p.exponent.isSome

/-- An exponent letter must be followed by digits. -/
def wellFormed (p : Parts) : Bool :=
  match p.exponent with
  | some e => !e.digits.isEmpty
  | none => true

/-- The exact number the numeral writes. -/
def value (p : Parts) : Decimal :=
  let fraction := p.fraction.getD []
  let shift := match p.exponent with | some e => e.value | none => 0
  ⟨natOfDigits (p.whole ++ fraction), shift - fraction.length⟩

end Parts

/-- The longest exponent part that a text starts with, and how many characters it takes. -/
def takeExponent : List Char → Option ExponentPart × Nat
  | c :: rest =>
    if c = 'e' ∨ c = 'E' then
      match rest with
      | s :: more =>
        if s = '+' ∨ s = '-' then
          let digits := more.takeWhile isDigit
          (some ⟨some s, digits⟩, digits.length + 2)
        else
          let digits := rest.takeWhile isDigit
          (some ⟨none, digits⟩, digits.length + 1)
      | [] => (some ⟨none, []⟩, 1)
    else (none, 0)
  | [] => (none, 0)

/-- The longest numeral that a text starts with, and how many characters it takes. The text
starts with a digit, or with a point that a digit follows. -/
def takeNumeral (text : List Char) : Parts × Nat :=
  let whole := text.takeWhile isDigit
  let rest := text.drop whole.length
  let fraction? : Option (List Char) :=
    match rest with
    | '.' :: more => some (more.takeWhile isDigit)
    | _ => none
  let before := whole.length + (match fraction? with | some f => f.length + 1 | none => 0)
  let (exponent?, taken) := takeExponent (text.drop before)
  (⟨whole, fraction?, exponent?⟩, before + taken)

end Numeral

end OpenQasm
