import OpenQasm.Numeral.Decimal

/-!
# JSON tokens

The lexical level of JSON. Numbers keep their text. The text of a string is decoded; it is absent
when the string names half of a surrogate pair, which is only an error where the text matters.

Model of how a configuration is split into tokens. Out of scope: where in the text an error is.
-/

namespace OpenQasm

/-- A token of JSON. -/
inductive JsonToken where
  | openBrace | closeBrace | openBracket | closeBracket | colon | comma
  | null
  | boolean (value : Bool)
  | number (text : List Char)
  | string (text : Option (List Char))
deriving DecidableEq, Repr

namespace JsonToken

/-- The white space of JSON. -/
def isSpace (c : Char) : Bool := c == ' ' || c == '\n' || c == '\t' || c == '\r'

/-- The value of a hexadecimal digit. -/
def hexDigit? (c : Char) : Option Nat :=
  if Numeral.isDigit c then some (c.toNat - '0'.toNat)
  else if 'a' ≤ c && c ≤ 'f' then some (c.toNat - 'a'.toNat + 10)
  else if 'A' ≤ c && c ≤ 'F' then some (c.toNat - 'A'.toNat + 10)
  else none

/-- The value of four hexadecimal digits. -/
def hexWord? : List Char → Option Nat
  | [a, b, c, d] => do
    return ((← hexDigit? a) * 16 + (← hexDigit? b)) * 256 + ((← hexDigit? c) * 16 + (← hexDigit? d))
  | _ => none

/-- The character of an escape with one letter. -/
def escape? : Char → Option Char
  | '"' => some '"'
  | '\\' => some '\\'
  | '/' => some '/'
  | 'b' => some '\x08'
  | 'f' => some '\x0c'
  | 'n' => some '\n'
  | 'r' => some '\r'
  | 't' => some '\t'
  | _ => none

/-- A unit of a string: a character, or one half of a surrogate pair. -/
inductive StringUnit where
  | char (c : Char)
  | surrogate (code : Nat)

/-- The unit of a code of 16 bits. -/
def unitOfCode (code : Nat) : StringUnit :=
  if 0xD800 ≤ code && code < 0xE000 then .surrogate code else .char (Char.ofNat code)

/-- The units of a string up to its closing quote, and the text after it. -/
def stringUnits : List Char → Option (List StringUnit × List Char)
  | [] => none
  | '"' :: rest => some ([], rest)
  | '\\' :: 'u' :: a :: b :: c :: d :: rest => do
    let code ← hexWord? [a, b, c, d]
    let (units, after) ← stringUnits rest
    return (unitOfCode code :: units, after)
  | '\\' :: e :: rest => do
    let c ← escape? e
    let (units, after) ← stringUnits rest
    return (.char c :: units, after)
  | c :: rest =>
    if c.toNat < 0x20 || c == '\\' then none
    else do
      let (units, after) ← stringUnits rest
      return (.char c :: units, after)

/-- The text of units, surrogate pairs being put together. -/
def unitsText : List StringUnit → Option (List Char)
  | [] => some []
  | .char c :: rest => (unitsText rest).map (c :: ·)
  | .surrogate high :: .surrogate low :: rest =>
    if high < 0xDC00 && 0xDC00 ≤ low then
      (unitsText rest).map
        (Char.ofNat (0x10000 + (high - 0xD800) * 0x400 + (low - 0xDC00)) :: ·)
    else none
  | .surrogate _ :: _ => none

/-- The digits at the head of a text, at least one, and the text after them. -/
def digits1 (text : List Char) : Option (List Char × List Char) :=
  let digits := text.takeWhile Numeral.isDigit
  if digits.isEmpty then none else some (digits, text.drop digits.length)

/-- The whole part of a number, which has no superfluous zero in front. -/
def wholePart : List Char → Option (List Char × List Char)
  | '0' :: rest => some (['0'], rest)
  | text => digits1 text

/-- The fraction of a number, if a point follows. -/
def fractionPart : List Char → Option (List Char × List Char)
  | '.' :: rest => (digits1 rest).map fun p => ('.' :: p.1, p.2)
  | text => some ([], text)

/-- The exponent of a number, if its letter follows. -/
def exponentPart : List Char → Option (List Char × List Char)
  | c :: rest =>
    if c == 'e' || c == 'E' then
      match rest with
      | s :: more =>
        if s == '+' || s == '-' then (digits1 more).map fun p => (c :: s :: p.1, p.2)
        else (digits1 rest).map fun p => (c :: p.1, p.2)
      | [] => none
    else some ([], c :: rest)
  | [] => some ([], [])

/-- A number at the head of a text, and the text after it. -/
def number? (text : List Char) : Option (List Char × List Char) := do
  let (sign, unsigned) := match text with
    | '-' :: rest => (['-'], rest)
    | _ => ([], text)
  let (whole, afterWhole) ← wholePart unsigned
  let (fraction, afterFraction) ← fractionPart afterWhole
  let (exponent, rest) ← exponentPart afterFraction
  return (sign ++ whole ++ fraction ++ exponent, rest)

/-- The token at the head of a text without leading white space, and the text after it. -/
def head? : List Char → Option (JsonToken × List Char)
  | '\x7b' :: rest => some (.openBrace, rest)
  | '\x7d' :: rest => some (.closeBrace, rest)
  | '[' :: rest => some (.openBracket, rest)
  | ']' :: rest => some (.closeBracket, rest)
  | ':' :: rest => some (.colon, rest)
  | ',' :: rest => some (.comma, rest)
  | 'n' :: 'u' :: 'l' :: 'l' :: rest => some (.null, rest)
  | 't' :: 'r' :: 'u' :: 'e' :: rest => some (.boolean true, rest)
  | 'f' :: 'a' :: 'l' :: 's' :: 'e' :: rest => some (.boolean false, rest)
  | '"' :: rest => (stringUnits rest).map fun p => (.string (unitsText p.1), p.2)
  | text => (number? text).map fun p => (.number p.1, p.2)

/-- The tokens of a text of at most `fuel` characters; nothing if it is not made of tokens. -/
def scanWithin : (fuel : Nat) → List Char → Option (List JsonToken)
  | _, [] => some []
  | 0, _ => none
  | fuel + 1, c :: rest =>
    if isSpace c then scanWithin fuel rest
    else do
      let (token, after) ← head? (c :: rest)
      return token :: (← scanWithin fuel after)

/-- The tokens of a text; nothing if it is not made of tokens. -/
def scan (text : String) : Option (List JsonToken) :=
  scanWithin text.toList.length text.toList

end JsonToken

end OpenQasm
