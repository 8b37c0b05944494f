import OpenQasm.Proofs.Algebra

/-!
# The algebra of rotations

Rotations over the real numbers. The entries of a rotation are real numbers at an angle
(`Amplitude.phased`), and such products add the angles, so that the laws of rotations are the
addition theorems of sine and cosine.

* `rotationMatrix_eq`: the four entries, with the conjugates and signs moved into the angle and the
  number.
* `product_rotationMatrix`: rotations compose when the outer phases cancel between them.
* `flip_rotation_flip`: flips before and after a rotation turn its three angles around.
* `adjoint_rotationMatrix`: the adjoint of a rotation is the rotation back.
-/

namespace OpenQasm

open Kernel Finset

/-! ## Real numbers at an angle -/

namespace Amplitude

/-- The real number `x`, turned by the angle `t`. -/
noncomputable def phased (t x : ℝ) : Amplitude ℝ := (unit t).times x

theorem phased_re (t x : ℝ) : (phased t x).re = Real.cos t * x := by
  show 1 * Real.cos t * x = _
  rw [one_mul]

theorem phased_im (t x : ℝ) : (phased t x).im = Real.sin t * x := by
  show 1 * Real.sin t * x = _
  rw [one_mul]

theorem unit_eq_phased (t : ℝ) : unit t = phased t 1 := by
  ext
  · rw [phased_re, mul_one]
    exact one_mul _
  · rw [phased_im, mul_one]
    exact one_mul _

theorem phased_zero_one : phased 0 1 = 1 := by
  ext
  · rw [phased_re, Real.cos_zero, one_mul, one_re]
  · rw [phased_im, Real.sin_zero, zero_mul, one_im]

theorem phased_zero_right (t : ℝ) : phased t 0 = 0 := by
  ext
  · rw [phased_re, mul_zero, zero_re]
  · rw [phased_im, mul_zero, zero_im]

theorem phased_mul_phased (s t x y : ℝ) : phased s x * phased t y = phased (s + t) (x * y) := by
  ext
  · rw [mul_re, phased_re, phased_re, phased_im, phased_im, phased_re, Real.cos_add]
    ring
  · rw [mul_im, phased_re, phased_re, phased_im, phased_im, phased_im, Real.sin_add]
    ring

theorem phased_add_phased (t x y : ℝ) : phased t x + phased t y = phased t (x + y) := by
  ext
  · rw [add_re, phased_re, phased_re, phased_re, mul_add]
  · rw [add_im, phased_im, phased_im, phased_im, mul_add]

theorem neg_phased (t x : ℝ) : -phased t x = phased t (-x) := by
  ext
  · rw [neg_re, phased_re, phased_re, mul_neg]
  · rw [neg_im, phased_im, phased_im, mul_neg]

theorem conj_phased (t x : ℝ) : (phased t x).conj = phased (-t) x := by
  ext
  · rw [conj_re, phased_re, phased_re, Real.cos_neg]
  · rw [conj_im, phased_im, phased_im, Real.sin_neg, neg_mul]

end Amplitude

/-! ## Two by two matrices -/

namespace Gate

section Square

variable {A : Type}

theorem square2_congr {a b c d a' b' c' d' : A} (ha : a = a') (hb : b = b') (hc : c = c')
    (hd : d = d') : square2 a b c d = square2 a' b' c' d' := by
  rw [ha, hb, hc, hd]

variable [CommRing A]

theorem product_square2 (a b c d a' b' c' d' : A) :
    (square2 a b c d).product (square2 a' b' c' d') =
      square2 (a * a' + b * c') (a * b' + b * d') (c * a' + d * c') (c * b' + d * d') := by
  refine SquareMatrix.ext_get (d := 2) rfl rfl fun i j hi hj => ?_
  rw [SquareMatrix.get_product (d := 2) rfl _ hi hj, sum_range_succ, sum_range_one]
  interval_cases i <;> interval_cases j <;> rfl

theorem adjoint_square2 [StarRing A] (a b c d : A) :
    (square2 a b c d).adjoint star = square2 (star a) (star c) (star b) (star d) := by
  refine SquareMatrix.ext_get (d := 2) rfl rfl fun i j hi hj => ?_
  rw [SquareMatrix.get_adjoint (d := 2) rfl hi hj]
  interval_cases i <;> interval_cases j <;> rfl

theorem identity_eq_square2 : (SquareMatrix.identity 2 : SquareMatrix A) = square2 1 0 0 1 := by
  refine SquareMatrix.ext_get (d := 2) rfl rfl fun i j hi hj => ?_
  rw [SquareMatrix.get_identity hi hj]
  interval_cases i <;> interval_cases j <;> rfl

end Square

/-! ## Rotations -/

open Amplitude

theorem half_eq (x : ℝ) : Scalar.half x = x / 2 := by
  show x / ((2 : ℕ) : ℝ) = x / 2
  norm_num

theorem dim_rotationMatrix (theta phi lambda : ℝ) : (rotationMatrix theta phi lambda).dim = 2 :=
  rfl

theorem rotationMatrix_eq (theta phi lambda : ℝ) :
    rotationMatrix theta phi lambda =
      square2 (phased (-(phi + lambda) / 2) (Real.cos (theta / 2)))
        (phased ((lambda - phi) / 2) (-Real.sin (theta / 2)))
        (phased ((phi - lambda) / 2) (Real.sin (theta / 2)))
        (phased ((phi + lambda) / 2) (Real.cos (theta / 2))) := by
  have hsum : (unit (Scalar.half (phi + lambda))).times (Scalar.cos (Scalar.half theta)) =
      phased ((phi + lambda) / 2) (Real.cos (theta / 2)) := by rw [half_eq, half_eq]; rfl
  have hdifference : (unit (Scalar.half (lambda - phi))).times (Scalar.sin (Scalar.half theta)) =
      phased ((lambda - phi) / 2) (Real.sin (theta / 2)) := by rw [half_eq, half_eq]; rfl
  refine square2_congr ?_ ?_ ?_ hsum
  · exact (congrArg conj hsum).trans ((conj_phased ..).trans (by rw [neg_div]))
  · exact (congrArg Neg.neg hdifference).trans (neg_phased ..)
  · exact (congrArg conj hdifference).trans ((conj_phased ..).trans (by rw [← neg_div, neg_sub]))

/-- A rotation about the axis of the phases only depends on the sum of its phases. -/
theorem rotationMatrix_zero (phi lambda : ℝ) :
    rotationMatrix 0 phi lambda =
      square2 (phased (-(phi + lambda) / 2) 1) 0 0 (phased ((phi + lambda) / 2) 1) := by
  rw [rotationMatrix_eq, zero_div, Real.sin_zero, Real.cos_zero, neg_zero, phased_zero_right,
    phased_zero_right]

theorem rotationMatrix_zero_congr {phi lambda phi' lambda' : ℝ}
    (h : phi + lambda = phi' + lambda') :
    rotationMatrix 0 phi lambda = rotationMatrix 0 phi' lambda' := by
  rw [rotationMatrix_zero, rotationMatrix_zero, h]

theorem rotationMatrix_zero_neg (phi : ℝ) :
    rotationMatrix 0 phi (-phi) = SquareMatrix.identity 2 := by
  rw [rotationMatrix_zero, identity_eq_square2, add_neg_cancel, neg_zero, zero_div,
    phased_zero_one]

/-- **Rotations compose** where the phase behind the left one undoes the phase in front of the right
one. -/
theorem product_rotationMatrix (theta phi lambda theta' lambda' : ℝ) :
    (rotationMatrix theta phi lambda).product (rotationMatrix theta' (-lambda) lambda') =
      rotationMatrix (theta + theta') phi lambda' := by
  have hcos : Real.cos ((theta + theta') / 2) = Real.cos (theta / 2) * Real.cos (theta' / 2) -
      Real.sin (theta / 2) * Real.sin (theta' / 2) := by rw [add_div, Real.cos_add]
  have hsin : Real.sin ((theta + theta') / 2) = Real.sin (theta / 2) * Real.cos (theta' / 2) +
      Real.cos (theta / 2) * Real.sin (theta' / 2) := by rw [add_div, Real.sin_add]
  -- both products in an entry are at the angle of the entry
  have hentry : ∀ {s t u x y z : ℝ}, s = u → t = u → x + y = z →
      phased s x + phased t y = phased u z := by
    rintro s t u x y z rfl rfl rfl
    exact phased_add_phased ..
  simp only [rotationMatrix_eq, product_square2, phased_mul_phased, hcos, hsin]
  refine square2_congr (hentry ?_ ?_ ?_) (hentry ?_ ?_ ?_) (hentry ?_ ?_ ?_) (hentry ?_ ?_ ?_)
  all_goals ring

/-- The flip of one bit. -/
noncomputable def flipMatrix : SquareMatrix (Amplitude ℝ) := square2 0 1 1 0

/-- Flips around a rotation turn it around. -/
theorem flip_rotation_flip (theta phi lambda : ℝ) :
    flipMatrix.product ((rotationMatrix theta phi lambda).product flipMatrix) =
      rotationMatrix (-theta) (-phi) (-lambda) := by
  simp only [flipMatrix, rotationMatrix_eq, product_square2, mul_zero, mul_one, zero_mul, one_mul,
    add_zero, zero_add]
  refine square2_congr ?_ ?_ ?_ ?_
  all_goals
    simp only [neg_div, Real.sin_neg, Real.cos_neg, neg_neg]
    congr 1
    ring

/-- **The adjoint of a rotation is the rotation back**, its phases exchanged. -/
theorem adjoint_rotationMatrix (theta phi lambda : ℝ) :
    (rotationMatrix theta phi lambda).adjoint star =
      rotationMatrix (-theta) (-lambda) (-phi) := by
  simp only [rotationMatrix_eq, adjoint_square2, star_eq_conj, conj_phased]
  refine square2_congr ?_ ?_ ?_ ?_
  all_goals
    simp only [neg_div, Real.sin_neg, Real.cos_neg, neg_neg]
    congr 1
    ring

end Gate

end OpenQasm
