import OpenQasm.Scalar

/-!
# Amplitudes

An amplitude is a complex number in Cartesian form: the coefficient of a basis state, or an entry
of an operator. Products and quotients are computed by the textbook formulas, without fused or
regrouped operations.

Model of the complex numbers of the simulator, with the operations that its kernels and gates use.
-/

namespace OpenQasm

/-- The complex number `re + im * i`. -/
structure Amplitude (R : Type) where
  re : R
  im : R
deriving Repr, DecidableEq, Inhabited

namespace Amplitude

variable {R : Type} [Scalar R]

instance : Zero (Amplitude R) := ⟨⟨0, 0⟩⟩
instance : One (Amplitude R) := ⟨⟨1, 0⟩⟩
instance : Add (Amplitude R) := ⟨fun a b => ⟨a.re + b.re, a.im + b.im⟩⟩
instance : Mul (Amplitude R) :=
  ⟨fun a b => ⟨a.re * b.re - a.im * b.im, a.re * b.im + a.im * b.re⟩⟩
instance : Neg (Amplitude R) := ⟨fun a => ⟨-a.re, -a.im⟩⟩
instance : BEq (Amplitude R) := ⟨fun a b => a.re == b.re && a.im == b.im⟩

/-- The conjugate. -/
def conj (a : Amplitude R) : Amplitude R := ⟨a.re, -a.im⟩

/-- The squared magnitude: the probability mass that the amplitude carries. -/
def mass (a : Amplitude R) : R := a.re * a.re + a.im * a.im

/-- The product with a real number. -/
def times (a : Amplitude R) (x : R) : Amplitude R := ⟨a.re * x, a.im * x⟩

/-- The quotient by a real number, taken in both parts. -/
def divBy (a : Amplitude R) (x : R) : Amplitude R := ⟨a.re / x, a.im / x⟩

/-- The number of magnitude one at the angle `t`. -/
def unit (t : R) : Amplitude R := ⟨1 * Scalar.cos t, 1 * Scalar.sin t⟩

/-- Whether both parts differ by at most `tolerance`. -/
def near (tolerance : R) (a b : Amplitude R) : Bool :=
  Scalar.near tolerance a.re b.re && Scalar.near tolerance a.im b.im

end Amplitude

end OpenQasm
