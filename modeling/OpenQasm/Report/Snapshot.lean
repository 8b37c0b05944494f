import OpenQasm.Numeral.Shortest
import OpenQasm.Quantum.Machine

/-!
# Snapshots

A machine as an indented JSON document: the number of qubits, every amplitude as a pair, and the
registers of both kinds.

A number is written with the fewest digits that read back, positionally between `1e-5` and
`1e16` and in scientific notation elsewhere; it always shows that it is a real number. JSON has
no text for infinite and undefined numbers, which become `null`.

Model of the document that a state is saved as. Out of scope: reading one.
-/

namespace OpenQasm.Report

/-- The mantissa of scientific notation. -/
def mantissaText (digits : String) : String :=
  match digits.toList with
  | [] => ""
  | [d] => d.toString
  | d :: more => d.toString ++ "." ++ String.ofList more

/-- A positive decimal. -/
def decimalText (d : Numeral.DecimalGrid) : String :=
  let digits := toString d.digits
  let place := d.exponent + digits.length
  if 0 ≤ d.exponent ∧ place ≤ 16 then d.positional ++ ".0"
  else if -5 < place ∧ place ≤ 16 then d.positional
  else mantissaText digits ++ "e" ++ toString (place - 1)

/-- A double. -/
def numberText (x : Float) : String :=
  match Binary64.ofFloat x with
  | .nan | .infinite _ => "null"
  | .finite negative 0 _ => Numeral.withSign negative "0.0"
  | .finite negative significand exponent =>
    Numeral.withSign negative (decimalText (Numeral.shortest significand exponent))

/-- A character inside a quoted text. -/
def quotedChar (c : Char) : String :=
  if c = '"' then "\\\"" else if c = '\\' then "\\\\" else c.toString

/-- A quoted text. Names are identifiers, so that little needs an escape. -/
def quotedText (text : String) : String :=
  "\"" ++ String.join (text.toList.map quotedChar) ++ "\""

/-! ## Layout -/

/-- The indentation of a nesting depth. -/
def indentation (depth : Nat) : String := String.ofList (List.replicate (2 * depth) ' ')

/-- Items between brackets that stand at a nesting depth, each on a line of its own. -/
def block (opening closing : String) (depth : Nat) (items : List String) : String :=
  if items.isEmpty then opening ++ closing
  else
    opening ++ "\n" ++ ",\n".intercalate (items.map (indentation (depth + 1) ++ ·)) ++ "\n"
      ++ indentation depth ++ closing

/-- An array at a nesting depth. -/
def array (depth : Nat) (items : List String) : String := block "[" "]" depth items

/-- An object at a nesting depth. -/
def object (depth : Nat) (fields : List (String × String)) : String :=
  block "\x7b" "\x7d" depth (fields.map fun f => quotedText f.1 ++ ": " ++ f.2)

/-- An amplitude as a pair. -/
def amplitudeText (a : Amplitude Float) : String := array 2 [numberText a.re, numberText a.im]

/-- A quantum register. -/
def quantumText (r : QuantumRegister) : String :=
  object 2 [("name", quotedText r.name), ("offset", toString r.offset),
    ("width", toString r.width)]

/-- A classical register, bit 0 first. -/
def classicalText (r : ClassicalRegister) : String :=
  object 2 [("name", quotedText r.name),
    ("bits", array 3 (r.bits.map fun b => toString b.toNat))]

/-- The snapshot of a machine. -/
def snapshot (m : Machine Float) : String :=
  object 0
    [("qubits", toString m.qubits),
      ("amplitudes", array 1 (m.vector.entries.toList.map amplitudeText)),
      ("quantum_registers", array 1 (m.quantum.map quantumText)),
      ("classical_registers", array 1 (m.classical.map classicalText))]

end OpenQasm.Report
