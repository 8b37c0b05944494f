import OpenQasm.Numeral.Places
import OpenQasm.Quantum.Machine

/-!
# Listing a machine

The registers with their contents, then every basis state whose amplitude is not negligible:
its bits, most significant first, the amplitude and the probability, with six places each.

Model of the text that a state is printed as.
-/

namespace OpenQasm.Report

/-- Amplitudes whose probability is below this are left out. -/
def negligible : Float := 1e-10

/-- A basis index in binary, with at least `width` digits. -/
def binary (width index : Nat) : String :=
  let digits := Nat.toDigits 2 index
  String.ofList (List.replicate (width - digits.length) '0' ++ digits)

/-- The line of a quantum register. -/
def quantumLine (r : QuantumRegister) : String :=
  s!"qreg {r.name}[{r.width}] bits {r.offset}..{r.offset + r.width}\n"

/-- The line of a classical register. -/
def classicalLine (r : ClassicalRegister) : String := "creg " ++ r.text ++ "\n"

/-- The line of a basis state; nothing for one that is negligible. -/
def amplitudeLine (width index : Nat) (a : Amplitude Float) : String :=
  if a.mass < negligible then ""
  else "|" ++ binary width index ++ "> " ++ Numeral.fixedText 6 true a.re
    ++ Numeral.fixedText 6 true a.im ++ "i  p=" ++ Numeral.fixedText 6 false a.mass ++ "\n"

/-- The listing of a machine. -/
def listing (m : Machine Float) : String :=
  let width := max m.qubits 1
  let amplitudes := m.vector.entries.foldl
    (fun (text, index) a => (text ++ amplitudeLine width index a, index + 1)) ("", 0)
  String.join (m.quantum.map quantumLine) ++ String.join (m.classical.map classicalLine)
    ++ amplitudes.1

end OpenQasm.Report
