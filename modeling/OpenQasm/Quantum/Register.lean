import OpenQasm.Scalar
import OpenQasm.Linear.BitIndex

/-!
# Registers

A quantum register is a range of bits of the basis index. A classical register holds its bits,
bit 0 being the least significant.

* `ClassicalRegister.value?` is the number that the bits write, as long as it fits 64 bits.
* `ClassicalRegister.holds` compares the register with a number at any width, bit by bit.

Model of the registers of a simulation. A bit is a truth value here; no operation stores another.
-/

namespace OpenQasm

/-- A register of qubits, at the bits `offset, ... offset + width - 1` of the basis index. -/
structure QuantumRegister where
  name : String
  offset : Nat
  width : Nat
deriving DecidableEq, Repr

/-- A register of bits, bit 0 first. -/
structure ClassicalRegister where
  name : String
  bits : List Bool
deriving DecidableEq, Repr

namespace QuantumRegister

/-- The bits of the basis index that a register takes. -/
def positions (r : QuantumRegister) : List Nat := (List.range r.width).map (r.offset + ·)

/-- The number of qubits of some registers together. -/
def totalWidth : List QuantumRegister → Nat
  | [] => 0
  | r :: rest => r.width + totalWidth rest

end QuantumRegister

namespace ClassicalRegister

/-- The widest register whose bits, one byte each, fit a signed 64-bit address space. -/
def maxWidth : Nat := Nat.pow 2 63 - 1

/-- The number of bits. -/
def width (r : ClassicalRegister) : Nat := r.bits.length

/-- The number that the bits write, unless a bit beyond the 64th is set. -/
def value? (r : ClassicalRegister) : Option Nat :=
  if (r.bits.drop 64).any id then none else some (BitIndex.ofBits (r.bits.take 64))

/-- Whether these bits write `n`: its bits are taken off one at a time. -/
def writes : List Bool → Nat → Bool
  | [], n => n == 0
  | b :: bs, n => n % 2 == b.toNat && writes bs (n / 2)

/-- Whether the register reads as the integer `z`. -/
def reads (r : ClassicalRegister) (z : Int) : Bool := decide (0 ≤ z) && writes r.bits z.toNat

/-- Whether the register reads as the scalar `x`, at any width. -/
def holds {R : Type} [Scalar R] (r : ClassicalRegister) (x : R) : Bool :=
  match Scalar.integer? x with
  | some z => r.reads z
  | none => false

/-- All bits cleared. -/
def cleared (r : ClassicalRegister) : ClassicalRegister :=
  { r with bits := r.bits.map fun _ => false }

/-- One bit replaced. -/
def setBit (r : ClassicalRegister) (index : Nat) (b : Bool) : ClassicalRegister :=
  { r with bits := r.bits.set index b }

/-- The bits as digits, the most significant first. -/
def digits (r : ClassicalRegister) : String :=
  String.ofList (r.bits.reverse.map fun b => if b then '1' else '0')

/-- The register with its bits and, if it fits 64 bits, its value. -/
def text (r : ClassicalRegister) : String :=
  let shown := r.name ++ "[" ++ toString r.width ++ "] = " ++ r.digits
  match r.value? with
  | some value => shown ++ " (" ++ toString value ++ ")"
  | none => shown

end ClassicalRegister

end OpenQasm
