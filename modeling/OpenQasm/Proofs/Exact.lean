import Mathlib.Algebra.Ring.MinimalAxioms
import Mathlib.Analysis.SpecialFunctions.Pow.Real
import Mathlib.Analysis.SpecialFunctions.Trigonometric.Basic
import Mathlib.Tactic.Ring
import OpenQasm.Amplitude

/-!
# Exact scalars

Doubles obey no algebraic law, so what is said about sums and products of amplitudes is said of
scalars that are computed exactly: a commutative ring whose test for equality decides equality. Its
amplitudes are a commutative ring as well, with the operations that the simulator computes.

What is said about probabilities needs order, quotients and square roots as well (`RealScalar`).
The real numbers have all of this. The functions of an angle expression are the real ones; a
division by zero, which doubles answer with an infinity, is zero.
-/

namespace OpenQasm

/-- Scalars that are computed exactly. The functions that an angle may call are not restricted. -/
class ExactScalar (R : Type) extends Scalar R, CommRing R where
  beq_iff_eq : ∀ x y : R, (x == y) = true ↔ x = y

/-- Exact scalars with the order, the quotients and the square roots of the real numbers. Sine and
cosine are any two functions whose values are the coordinates of points on the unit circle. -/
class RealScalar (R : Type) extends ExactScalar R, Field R, LinearOrder R,
    IsStrictOrderedRing R where
  sin_mul_self_add_cos_mul_self : ∀ t : R,
    Scalar.sin t * Scalar.sin t + Scalar.cos t * Scalar.cos t = 1
  sqrt_mul_self : ∀ x : R, 0 ≤ x → Scalar.sqrt x * Scalar.sqrt x = x
  zeroMass_pos : (0 : R) < Scalar.zeroMass

/-- Exact scalars on which a normalized vector stays as it is when it is scaled to mass one: square
roots are not negative, and one is not a faint mass. -/
class RootScalar (R : Type) extends RealScalar R where
  sqrt_nonneg : ∀ x : R, 0 ≤ x → 0 ≤ Scalar.sqrt x
  zeroMass_le_one : (Scalar.zeroMass : R) ≤ 1

instance ExactScalar.lawfulBEq {R : Type} [ExactScalar R] : LawfulBEq R where
  eq_of_beq h := (ExactScalar.beq_iff_eq _ _).mp h
  rfl := (ExactScalar.beq_iff_eq _ _).mpr rfl

namespace Amplitude

@[ext]
theorem ext {R : Type} {a b : Amplitude R} (hre : a.re = b.re) (him : a.im = b.im) : a = b := by
  cases a
  cases b
  cases hre
  cases him
  rfl

variable {R : Type} [ExactScalar R]

theorem zero_re : (0 : Amplitude R).re = 0 := rfl
theorem zero_im : (0 : Amplitude R).im = 0 := rfl
theorem one_re : (1 : Amplitude R).re = 1 := rfl
theorem one_im : (1 : Amplitude R).im = 0 := rfl
theorem add_re (a b : Amplitude R) : (a + b).re = a.re + b.re := rfl
theorem add_im (a b : Amplitude R) : (a + b).im = a.im + b.im := rfl
theorem neg_re (a : Amplitude R) : (-a).re = -a.re := rfl
theorem neg_im (a : Amplitude R) : (-a).im = -a.im := rfl
theorem mul_re (a b : Amplitude R) : (a * b).re = a.re * b.re - a.im * b.im := rfl
theorem mul_im (a b : Amplitude R) : (a * b).im = a.re * b.im + a.im * b.re := rfl

/-- **Amplitudes over exact scalars are a commutative ring**, under the operations of the
simulator. -/
instance : CommRing (Amplitude R) :=
  CommRing.ofMinimalAxioms
    (fun a b c => by ext <;> simp only [add_re, add_im] <;> ring)
    (fun a => by ext <;> simp only [add_re, add_im, zero_re, zero_im] <;> ring)
    (fun a => by ext <;> simp only [add_re, add_im, neg_re, neg_im, zero_re, zero_im] <;> ring)
    (fun a b c => by ext <;> simp only [mul_re, mul_im] <;> ring)
    (fun a b => by ext <;> simp only [mul_re, mul_im] <;> ring)
    (fun a => by ext <;> simp only [mul_re, mul_im, one_re, one_im] <;> ring)
    (fun a b c => by ext <;> simp only [mul_re, mul_im, add_re, add_im] <;> ring)

instance : LawfulBEq (Amplitude R) where
  eq_of_beq {a b} h := by
    have h := Bool.and_eq_true_iff.mp h
    exact ext (eq_of_beq h.1) (eq_of_beq h.2)
  rfl {a} := Bool.and_eq_true_iff.mpr ⟨beq_self_eq_true a.re, beq_self_eq_true a.im⟩

end Amplitude

/-! ## The real numbers -/

/-- The real numbers, which are all finite. -/
noncomputable instance : Scalar ℝ where
  beq x y := decide (x = y)
  decidableLT := inferInstance
  decidableLE := inferInstance
  sin := Real.sin
  cos := Real.cos
  tan := Real.tan
  exp := Real.exp
  ln := Real.log
  sqrt := Real.sqrt
  pow x y := x ^ y
  pi := Real.pi
  ofNat n := n
  ofDecimal d := d.significand * 10 ^ d.exponent
  isFinite _ := true
  nearest x := if x < 0 then ⌈x - 1 / 2⌉ else ⌊x + 1 / 2⌋
  integer? x := if x = ⌊x⌋ then some ⌊x⌋ else none

noncomputable instance : ExactScalar ℝ where
  beq_iff_eq _ _ := decide_eq_true_iff
  __ := (inferInstance : Scalar ℝ)
  __ := (inferInstance : CommRing ℝ)

noncomputable instance : RealScalar ℝ where
  sin_mul_self_add_cos_mul_self t := by
    show Real.sin t * Real.sin t + Real.cos t * Real.cos t = 1
    rw [← sq, ← sq, Real.sin_sq_add_cos_sq]
  sqrt_mul_self x hx := Real.mul_self_sqrt hx
  zeroMass_pos := by
    show (0 : ℝ) < (1 : ℕ) * 10 ^ (-12 : ℤ)
    positivity
  __ := (inferInstance : ExactScalar ℝ)
  __ := (inferInstance : Field ℝ)
  __ := (inferInstance : LinearOrder ℝ)
  __ := (inferInstance : IsStrictOrderedRing ℝ)

noncomputable instance : RootScalar ℝ where
  sqrt_nonneg x _ := Real.sqrt_nonneg x
  zeroMass_le_one := by
    show ((1 : ℕ) : ℝ) * 10 ^ (-12 : ℤ) ≤ 1
    norm_num

end OpenQasm
