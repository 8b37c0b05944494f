import OpenQasm.Config.JsonToken

/-!
# Run configurations

A run is configured by an optional seed and a ceiling on the number of qubits. Both can be given
in JSON: as an object with the optional fields `seed` and `max_qubits`, other fields being
ignored, or as an array of the two, trailing elements being optional.

`RunConfig.ofJson?` walks over the tokens of the text. What is ignored must still be well formed,
which `skipValue` checks with a stack of the brackets that are open.

Model of run configurations and of how they are read. Out of scope: the texts of the errors.
-/

namespace OpenQasm

/-- The knobs of a run. -/
structure RunConfig where
  seed : Option Nat
  maxQubits : Nat
deriving DecidableEq, Repr

namespace RunConfig

/-- A 24-qubit state vector takes 256 MiB. -/
def defaultMaxQubits : Nat := 24

/-- No seed, and the default ceiling. -/
def default : RunConfig := ⟨none, defaultMaxQubits⟩

/-! ## Ignored values -/

/-- An open bracket: an array, or an object. -/
inductive Bracket where
  | array
  | object
deriving DecidableEq

/-- Where the walk over a value stands. -/
inductive Spot where
  | value
  | valueOrClose
  | key
  | keyOrClose
  | colon
  | afterValue
deriving DecidableEq

/-- Walk over the tokens of one value; `stack` holds the brackets that are open, innermost first.
Answers the tokens after the value. -/
def skipFrom : List Bracket → Spot → List JsonToken → Option (List JsonToken)
  | [], .afterValue, rest => some rest
  | _, _, [] => none
  | stack, spot, token :: rest =>
    match spot, token with
    | .value, .openBracket | .valueOrClose, .openBracket =>
      skipFrom (.array :: stack) .valueOrClose rest
    | .value, .openBrace | .valueOrClose, .openBrace =>
      skipFrom (.object :: stack) .keyOrClose rest
    | .value, .null | .value, .boolean _ | .value, .number _ | .value, .string _
    | .valueOrClose, .null | .valueOrClose, .boolean _ | .valueOrClose, .number _
    | .valueOrClose, .string _ => skipFrom stack .afterValue rest
    | .valueOrClose, .closeBracket => skipFrom stack.tail .afterValue rest
    | .key, .string _ | .keyOrClose, .string _ => skipFrom stack .colon rest
    | .keyOrClose, .closeBrace => skipFrom stack.tail .afterValue rest
    | .colon, .colon => skipFrom stack .value rest
    | .afterValue, .comma =>
      match stack with
      | .array :: _ => skipFrom stack .value rest
      | .object :: _ => skipFrom stack .key rest
      | [] => none
    | .afterValue, .closeBracket =>
      if stack.head? = some .array then skipFrom stack.tail .afterValue rest else none
    | .afterValue, .closeBrace =>
      if stack.head? = some .object then skipFrom stack.tail .afterValue rest else none
    | _, _ => none

/-- The tokens after one value. -/
def skipValue (ts : List JsonToken) : Option (List JsonToken) := skipFrom [] .value ts

/-! ## Fields -/

/-- A number that is a natural number below `2 ^ 64`, written without sign, fraction or
exponent. -/
def natural? (text : List Char) : Option Nat :=
  if text.all Numeral.isDigit then
    let n := Numeral.natOfDigits text
    if n < UInt64.size then some n else none
  else none

/-- A seed: a natural number or `null`. -/
def seedValue? : JsonToken → Option (Option Nat)
  | .null => some none
  | .number text => (natural? text).map some
  | _ => none

/-- A ceiling: a natural number. -/
def ceilingValue? : JsonToken → Option Nat
  | .number text => natural? text
  | _ => none

/-- The fields that were read so far. -/
structure Fields where
  seed : Option (Option Nat)
  maxQubits : Option Nat

/-- Fields that were not read take their defaults. -/
def Fields.toConfig (f : Fields) : RunConfig :=
  ⟨f.seed.getD none, f.maxQubits.getD defaultMaxQubits⟩

/-- Read one field's value. Known fields must not be repeated. -/
def readField (f : Fields) (name : List Char) (ts : List JsonToken) :
    Option (Fields × List JsonToken) :=
  if name = "seed".toList then
    match ts with
    | token :: rest =>
      if f.seed.isSome then none
      else (seedValue? token).map fun seed => ({ f with seed := some seed }, rest)
    | [] => none
  else if name = "max_qubits".toList then
    match ts with
    | token :: rest =>
      if f.maxQubits.isSome then none
      else (ceilingValue? token).map fun n => ({ f with maxQubits := some n }, rest)
    | [] => none
  else (skipValue ts).map fun rest => (f, rest)

/-- Read the members of an object of at most `fuel` tokens, the first of them next. Answers the
fields and the tokens after the closing brace. -/
def readMembers : (fuel : Nat) → Fields → List JsonToken → Option (Fields × List JsonToken)
  | 0, _, _ => none
  | fuel + 1, f, .string (some name) :: .colon :: ts => do
    let (f, rest) ← readField f name ts
    match rest with
    | .closeBrace :: after => return (f, after)
    | .comma :: more => readMembers fuel f more
    | _ => none
  | _, _, _ => none

/-- The configuration of an array of at most two elements, after its opening bracket. -/
def readElements : List JsonToken → Option (RunConfig × List JsonToken)
  | .closeBracket :: rest => some (default, rest)
  | seed :: .closeBracket :: rest => do return (⟨← seedValue? seed, defaultMaxQubits⟩, rest)
  | seed :: .comma :: ceiling :: .closeBracket :: rest => do
    return (⟨← seedValue? seed, ← ceilingValue? ceiling⟩, rest)
  | _ => none

/-- The configuration that tokens write, and the tokens after it. -/
def ofTokens? : List JsonToken → Option (RunConfig × List JsonToken)
  | .openBrace :: .closeBrace :: rest => some (default, rest)
  | .openBrace :: ts => do
    let (f, rest) ← readMembers ts.length ⟨none, none⟩ ts
    return (f.toConfig, rest)
  | .openBracket :: ts => readElements ts
  | _ => none

/-- The configuration that a JSON text writes. -/
def ofJson? (text : String) : Option RunConfig := do
  match ofTokens? (← JsonToken.scan text) with
  | some (config, []) => some config
  | _ => none

end RunConfig

end OpenQasm
