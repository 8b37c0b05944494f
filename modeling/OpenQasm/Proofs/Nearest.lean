import Mathlib
import OpenQasm.Proofs.Comparison

/-!
# Natural numbers as doubles

A natural number becomes a double by shifting its bits to the right until 53 of them are left. What
falls off is remembered in two more bits, of which the last one sticks; they say on which side of a
half the lost part lies.

`NearestDouble q x v` says what rounding to the nearest double is: `v` is the exact value of `x`, no
double is nearer to `q`, and if another one is as near then the word of `x` is even.

* `Shifted.step`, `shifted_repeat`: what is left after any number of shifts.
* `nearestDouble_of_near`: a multiple of a unit within half a unit is nearest among all doubles,
  since those that are no multiples are too small.
* `unpack_pack`: a normal number survives being packed into 64 bits.
* **`nearestDouble_roundWithAccuracy`**: rounding a mantissa of at least 53 bits finds the nearest
  double.
* **`nearestDouble_ofNat`**: so does the conversion of a natural number.
* **`Executor.execute_literal`**: what an `if` that compares a register with a literal does.
-/

namespace OpenQasm

open Float.Model UnpackedFloat

/-! ## Shifting out bits -/

/-- A mantissa after `s` shifts: what is left of `m`, and where the lost part lies. -/
structure Shifted (m s : Nat) (em : ExtendedMantissa) : Prop where
  mantissa : em.mantissa = m / 2 ^ s
  round : em.roundBit = true ↔ 2 ^ s ≤ 2 * (m % 2 ^ s)
  sticky : em.stickyBit = true ↔ m % 2 ^ s ≠ 0 ∧ 2 * (m % 2 ^ s) ≠ 2 ^ s

theorem shifted_zero (m : Nat) : Shifted m 0 ⟨m, false, false⟩ where
  mantissa := (Nat.div_one m).symm
  round := by simp [Nat.mod_one]
  sticky := by simp [Nat.mod_one]

namespace Shifted

variable {m s : Nat} {em : ExtendedMantissa}

/-- What one more shift does. -/
theorem step (h : Shifted m s em) : Shifted m (s + 1) em.shiftRightOne := by
  have hpos : 0 < 2 ^ s := Nat.two_pow_pos s
  have hlost : m % 2 ^ (s + 1) = m % 2 ^ s + 2 ^ s * (m / 2 ^ s % 2) := by
    rw [pow_succ, Nat.mod_mul]
  have hlt : m % 2 ^ s < 2 ^ s := Nat.mod_lt _ hpos
  have hbit : m / 2 ^ s % 2 = 0 ∨ m / 2 ^ s % 2 = 1 := by omega
  refine ⟨?_, ?_, ?_⟩
  · rw [ExtendedMantissa.shiftRightOne, h.mantissa, Nat.div_div_eq_div_mul, pow_succ]
  · rw [ExtendedMantissa.shiftRightOne, h.mantissa, bne_iff_ne, hlost, pow_succ]
    rcases hbit with hb | hb <;> rw [hb] <;> omega
  · rw [ExtendedMantissa.shiftRightOne, Bool.or_eq_true, h.round, h.sticky, hlost, pow_succ]
    rcases hbit with hb | hb <;> rw [hb] <;> omega

/-- The lost part is below a half, a half, or above it. -/
theorem roundedMantissa_cases (h : Shifted m s em) :
    (2 * (m % 2 ^ s) < 2 ^ s ∧ em.roundedMantissa = m / 2 ^ s) ∨
    (2 * (m % 2 ^ s) = 2 ^ s ∧ em.roundedMantissa = m / 2 ^ s + m / 2 ^ s % 2) ∨
    (2 ^ s < 2 * (m % 2 ^ s) ∧ em.roundedMantissa = m / 2 ^ s + 1) := by
  obtain ⟨hmantissa, hround, hsticky⟩ := h
  obtain ⟨mantissa, round, sticky⟩ := em
  dsimp only at hmantissa hround hsticky
  subst hmantissa
  cases round <;> cases sticky <;> simp only [Bool.false_eq_true, false_iff, true_iff] at *
  · exact .inl ⟨by omega, rfl⟩
  · exact .inl ⟨by omega, rfl⟩
  · exact .inr (.inl ⟨by omega, rfl⟩)
  · exact .inr (.inr ⟨by omega, rfl⟩)

/-- The rounded mantissa is at most half a unit away, and even if it is that far. -/
theorem roundedMantissa_near (h : Shifted m s em) :
    2 * |(em.roundedMantissa * 2 ^ s - m : ℤ)| ≤ 2 ^ s ∧
      (2 * |(em.roundedMantissa * 2 ^ s - m : ℤ)| = 2 ^ s → Even em.roundedMantissa) := by
  have hcases := h.roundedMantissa_cases
  have hpow : (2 ^ s : ℤ) = (2 ^ s : Nat) := by push_cast; rfl
  have hsplit : (m : ℤ) = (m / 2 ^ s : Nat) * (2 ^ s : Nat) + (m % 2 ^ s : Nat) := by
    exact_mod_cast (Nat.div_add_mod' m (2 ^ s)).symm
  have hlt : m % 2 ^ s < 2 ^ s := Nat.mod_lt _ (Nat.two_pow_pos s)
  rw [hpow, Int.abs_eq_natAbs, Nat.even_iff]
  generalize m / 2 ^ s = quotient at *
  generalize m % 2 ^ s = lost at *
  generalize 2 ^ s = unit at *
  have haway (c : Nat) : ((quotient + c : Nat) * unit - m : ℤ) = c * unit - lost := by
    rw [hsplit]
    push_cast
    ring
  rcases hcases with ⟨hlost, hrounded⟩ | ⟨hlost, hrounded⟩ | ⟨hlost, hrounded⟩
  · have h := haway 0
    rw [Nat.add_zero] at h
    rw [hrounded, h]
    omega
  · rw [hrounded, haway]
    rcases Nat.mod_two_eq_zero_or_one quotient with heven | hodd
    · rw [heven]; omega
    · rw [hodd]; omega
  · rw [hrounded, haway]
    omega

end Shifted

theorem shifted_repeat (m s : Nat) :
    Shifted m s ((⟨m, false, false⟩ : ExtendedMantissa) >>> s) := by
  induction s with
  | zero => exact shifted_zero m
  | succ s ih => exact ih.step

/-! ## The nearest double -/

/-- A double of value `v` is the one nearest to `q`; if another one is as near, its word is even. -/
structure NearestDouble (q : ℚ) (x : Float) (v : ℚ) : Prop where
  value : exactValue? x = some v
  closest : ∀ y w, exactValue? y = some w → |v - q| ≤ |w - q|
  even : ∀ y w, exactValue? y = some w → w ≠ v → |w - q| = |v - q| → Even x.toBits.toNat

namespace NearestDouble

variable {q v : ℚ} {x y : Float}

theorem of_exact (h : exactValue? x = some q) : NearestDouble q x q where
  value := h
  closest y w _ := by
    rw [sub_self, abs_zero]
    exact abs_nonneg _
  even y w _ hne heq := by
    rw [sub_self, abs_zero, abs_eq_zero, sub_eq_zero] at heq
    exact absurd heq hne

/-- What a double represents exactly is not changed. -/
theorem eq_of_exact (h : NearestDouble q x v) (hy : exactValue? y = some q) : v = q := by
  have hclosest := h.closest y q hy
  rw [sub_self, abs_zero] at hclosest
  exact sub_eq_zero.mp (abs_nonpos_iff.mp hclosest)

end NearestDouble

section Nearest

variable {n k : ℤ} {q w : ℚ}

/-- Two multiples of a unit are not both nearer than half of it. -/
theorem unit_le_of_ne {z : ℤ} {unit : ℚ} (hpos : 0 < unit) (hne : z ≠ n) :
    unit ≤ |z * unit - q| + |n * unit - q| := by
  have hgap : (1 : ℚ) ≤ |(z - n : ℤ)| := by
    exact_mod_cast Int.one_le_abs (sub_ne_zero.mpr hne)
  calc unit ≤ |((z - n : ℤ) : ℚ)| * unit := le_mul_of_one_le_left hpos.le (by exact_mod_cast hgap)
    _ = |(z * unit - q) - (n * unit - q)| := by
      rw [← abs_of_pos hpos, ← abs_mul, abs_of_pos hpos]
      push_cast
      ring_nf
    _ ≤ |z * unit - q| + |n * unit - q| := abs_sub _ _

/-- The significand of a double has 53 bits. -/
theorem exists_significand {y : Float} (h : exactValue? y = some w) :
    ∃ z e : ℤ, |z| < 2 ^ 53 ∧ w = z * 2 ^ e := by
  have hsigned (negative : Bool) (magnitude : Nat) (hlt : magnitude < 2 ^ 53) :
      |Binary64.signed negative magnitude| < 2 ^ 53 := by
    rw [Int.abs_eq_natAbs]
    cases negative <;> rw [Binary64.signed] <;> omega
  rw [← Binary64.value?_ofFloat, Binary64.ofFloat, Binary64.ofBits] at h
  simp only [Nat.pow_eq] at h
  have hfraction := Nat.mod_lt y.toBits.toNat (Nat.two_pow_pos 52)
  split at h
  · split at h <;> cases h
  split at h <;> obtain rfl := Option.some.inj h
  · exact ⟨_, _, hsigned _ _ (by omega), rfl⟩
  · exact ⟨_, _, hsigned _ _ (by omega), rfl⟩

/-- A double is a multiple of a unit, or it is below `2 ^ 52` of them. -/
theorem multiple_or_lt {y : Float} (h : exactValue? y = some w) (k : ℤ) :
    (∃ z : ℤ, w = z * 2 ^ k) ∨ w < 2 ^ 52 * 2 ^ k := by
  obtain ⟨z, e, hz, rfl⟩ := exists_significand h
  rcases le_or_gt k e with hle | hlt
  · obtain ⟨d, rfl⟩ := Int.le.dest hle
    refine .inl ⟨z * 2 ^ d, ?_⟩
    rw [zpow_add₀ two_ne_zero, zpow_natCast]
    push_cast
    ring
  · refine .inr ?_
    have hz : (z : ℚ) < 2 ^ 53 := by exact_mod_cast (le_abs_self z).trans_lt hz
    have hpos : (0 : ℚ) < 2 ^ e := zpow_pos two_pos e
    calc (z : ℚ) * 2 ^ e < 2 ^ 53 * 2 ^ e := mul_lt_mul_of_pos_right hz hpos
      _ = 2 ^ 52 * 2 ^ (e + 1) := by rw [zpow_add_one₀ two_ne_zero]; ring
      _ ≤ 2 ^ 52 * 2 ^ k := by
        have := zpow_le_zpow_right₀ (one_le_two : (1 : ℚ) ≤ 2) (Int.add_one_le_of_lt hlt)
        linarith

/-- A multiple of a unit within half a unit is nearest, if there are at least `2 ^ 52` units. -/
theorem nearestDouble_of_near {x : Float} (hvalue : exactValue? x = some (n * 2 ^ k : ℚ))
    (hlarge : 2 ^ 52 * 2 ^ k ≤ q) (hnear : 2 * |n * 2 ^ k - q| ≤ 2 ^ k)
    (htie : 2 * |n * 2 ^ k - q| = 2 ^ k → Even x.toBits.toNat) :
    NearestDouble q x (n * 2 ^ k) := by
  have hpos : (0 : ℚ) < 2 ^ k := zpow_pos two_pos k
  have hmultiple {z : ℤ} (hne : z ≠ n) : 2 ^ k ≤ |z * 2 ^ k - q| + |n * 2 ^ k - q| :=
    unit_le_of_ne hpos hne
  have hfar {y : Float} {w : ℚ} (h : exactValue? y = some w) (hne : w ≠ n * 2 ^ k) :
      2 ^ k ≤ |w - q| + |n * 2 ^ k - q| ∨ |n * 2 ^ k - q| < |w - q| := by
    rcases multiple_or_lt h k with ⟨z, rfl⟩ | hlt
    · exact .inl (hmultiple fun hz => hne (by rw [hz]))
    · -- the double is beyond `2 ^ 52` units, which is itself a multiple
      have hbeyond : |((2 ^ 52 : ℤ) : ℚ) * 2 ^ k - q| < |w - q| := by
        rw [Int.cast_pow, Int.cast_ofNat, abs_of_nonpos (sub_nonpos.mpr hlarge),
          abs_of_neg (by linarith)]
        linarith
      by_cases hn : (2 ^ 52 : ℤ) = n
      · exact .inr (by simpa [← hn] using hbeyond)
      · have := hmultiple hn
        exact .inl (by linarith)
  exact {
    value := hvalue
    closest := by
      intro y w h
      by_cases hne : w = n * 2 ^ k
      · rw [hne]
      · rcases hfar h hne with hsum | hlt <;> linarith
    even := by
      intro y w h hne heq
      rcases hfar h hne with hsum | hlt
      · exact htie (by linarith)
      · exact absurd heq hlt.ne' }

end Nearest

/-! ## Packing into 64 bits -/

section Packing

variable {m : Nat} {e : ℤ}

theorem log2_eq {m s : Nat} (hlow : 2 ^ s ≤ m) (hhigh : m < 2 ^ (s + 1)) : m.log2 = s := by
  have hne : m ≠ 0 := (Nat.two_pow_pos s |>.trans_le hlow).ne'
  have hle : s ≤ m.log2 := (Nat.le_log2 hne).mpr hlow
  have hlt : m.log2 < s + 1 := (Nat.log2_lt hne).mpr hhigh
  omega

/-- What a normal number is packed into. -/
theorem pack_finite (hm : 0 < m) (hlow : 2 ^ 52 ≤ m) (hhigh : m < 2 ^ 53) (hmin : -1074 ≤ e)
    (hmax : e ≤ 971) : UnpackedFloat.pack .binary64 (.finite .positive m e hm) =
      packComponents .binary64 .positive (BitVec.ofNat 11 (e + 1075).toNat)
        (BitVec.ofNat 52 m) := by
  have hlog : m.log2 = 52 := log2_eq hlow hhigh
  have hbias : (e + Format.binary64.exponentBias + Format.binary64.mantissaBitsWithoutImplicit) =
      e + 1075 := by
    rw [add_assoc]
    rfl
  have hfits : ¬2 ^ Format.binary64.exponentBits ≤ (e + 1075).toNat + 1 := by
    change ¬2 ^ 11 ≤ _
    omega
  have hbits : 52 + 1 = Format.binary64.mantissaBits := rfl
  rw [UnpackedFloat.pack]
  simp only [hlog, hbias]
  rw [if_neg hfits, if_pos hbits]

theorem toNat_packComponents (exponent : BitVec 11) (mantissa : BitVec 52) :
    (packComponents .binary64 .positive exponent mantissa).toNat =
      2 ^ 52 * exponent.toNat + mantissa.toNat := by
  have hexponent : (Sign.toBitVec .positive ++ exponent).toNat = exponent.toNat := by
    rw [BitVec.toNat_append]
    exact (congrArg (· ||| exponent.toNat) (Nat.zero_shiftLeft 11)).trans (Nat.zero_or _)
  have happend : (packComponents .binary64 .positive exponent mantissa).toNat =
      (Sign.toBitVec .positive ++ exponent).toNat <<< 52 ||| mantissa.toNat :=
    BitVec.toNat_append ..
  rw [happend, hexponent, ← Nat.shiftLeft_add_eq_or_of_lt mantissa.isLt, Nat.shiftLeft_eq,
    mul_comm]

/-- **A normal number survives packing.** -/
theorem unpack_pack (hm : 0 < m) (hlow : 2 ^ 52 ≤ m) (hhigh : m < 2 ^ 53) (hmin : -1074 ≤ e)
    (hmax : e ≤ 971) : (Float.Model.pack (.finite .positive m e hm)).unpack =
      .finite .positive m e hm := by
  have hexponent : (e + 1075).toNat < 2 ^ 11 := by omega
  have hsign : unpackSign (packComponents .binary64 .positive
      (BitVec.ofNat 11 (e + 1075).toNat) (BitVec.ofNat 52 m)) = 0#1 := by
    rw [← BitVec.toNat_inj, Binary64.toNat_unpackSign, toNat_packComponents, BitVec.toNat_ofNat,
      BitVec.toNat_ofNat, Nat.mod_eq_of_lt hexponent, Nat.pow_eq]
    change _ = 0
    omega
  have hfull : BitVec.ofNat 11 (e + 1075).toNat ≠ -1#11 := by
    rw [Ne, ← BitVec.toNat_inj, BitVec.toNat_ofNat, Nat.mod_eq_of_lt hexponent]
    change _ ≠ 2047
    omega
  have hempty : BitVec.ofNat 11 (e + 1075).toNat ≠ 0#11 := by
    rw [Ne, ← BitVec.toNat_inj, BitVec.toNat_ofNat, Nat.mod_eq_of_lt hexponent]
    change _ ≠ 0
    omega
  have hmantissa : (1#1 ++ BitVec.ofNat 52 m).toNat = m := by
    have hlast : (BitVec.ofNat 52 m).toNat = m % 2 ^ 52 := BitVec.toNat_ofNat ..
    rw [BitVec.toNat_append, ← Nat.shiftLeft_add_eq_or_of_lt (BitVec.ofNat 52 m).isLt, hlast]
    change 2 ^ 52 + _ = _
    omega
  have hbias : ((e + 1075).toNat : ℤ) - (Format.binary64.exponentBias + (52 : Nat)) = e := by
    change _ - (1075 : ℤ) = e
    omega
  change UnpackedFloat.unpack .binary64 (UnpackedFloat.pack .binary64 _) = _
  rw [pack_finite hm hlow hhigh hmin hmax, UnpackedFloat.unpack]
  simp only [unpackMantissa_packComponents, unpackExponent_packComponents, hsign]
  rw [if_neg hfull, if_neg hempty]
  simp only [hmantissa, BitVec.toNat_ofNat, Nat.mod_eq_of_lt hexponent, hbias]
  rfl

/-- The value of a packed normal number, and the last bit of its word. -/
theorem value_pack (hm : 0 < m) (hlow : 2 ^ 52 ≤ m) (hhigh : m < 2 ^ 53) (hmin : -1074 ≤ e)
    (hmax : e ≤ 971) :
    let x := Float.ofModel (.pack (.finite .positive m e hm))
    exactValue? x = some (m * 2 ^ e : ℚ) ∧ (Even m → Even x.toBits.toNat) := by
  intro x
  constructor
  · have hunpack : x.toModel.unpack = _ := unpack_pack hm hlow hhigh hmin hmax
    rw [exactValue?, hunpack, unpackedValue?_finite]
    rfl
  · have hword : x.toBits.toNat = 2 ^ 52 * (BitVec.ofNat 11 (e + 1075).toNat).toNat + m % 2 ^ 52 :=
      (congrArg BitVec.toNat (pack_finite hm hlow hhigh hmin hmax)).trans
        (toNat_packComponents _ _)
    rw [hword, Nat.even_iff, Nat.even_iff]
    omega

end Packing

/-! ## Rounding -/

section Rounding

variable {m : Nat} {e : ℤ}

/-- A mantissa that has 53 bits too many is shifted by as many. -/
theorem shiftToTargetExponent_eq {s : Nat} (hlog : m.log2 = 52 + s) (hmin : -1074 ≤ e) :
    shiftToTargetExponent .binary64 m e .exact =
      ((⟨m, false, false⟩ : ExtendedMantissa) >>> s, e + s) := by
  have htarget : Format.binary64.targetExponent (totalExponent m e) = e + s := by
    have hbits : (Format.binary64.mantissaBits : ℤ) = 53 := rfl
    have hleast : Format.binary64.minExponent = -1074 := rfl
    rw [Format.targetExponent, totalExponent, hlog, hbits, hleast]
    omega
  have hshift : (e + s - e).toNat = s := by omega
  simp only [shiftToTargetExponent, shiftToExponent, htarget, hshift]
  rfl

/-- The mantissa of 53 bits, or `2 ^ 53` after a carry. -/
def roundedAt (m s : Nat) : Nat :=
  ((⟨m, false, false⟩ : ExtendedMantissa) >>> s).roundedMantissa

theorem large_of_log2 {s : Nat} (hlog : m.log2 = 52 + s) : 2 ^ 52 * 2 ^ s ≤ m := by
  rw [← pow_add, ← hlog]
  refine Nat.log2_self_le ?_
  rintro rfl
  rw [Nat.log2_zero] at hlog
  omega

theorem roundedAt_bounds {s : Nat} (hlog : m.log2 = 52 + s) :
    2 ^ 52 ≤ roundedAt m s ∧ roundedAt m s ≤ 2 ^ 53 := by
  have hlow : 2 ^ 52 ≤ m / 2 ^ s :=
    (Nat.le_div_iff_mul_le (Nat.two_pow_pos s)).mpr (large_of_log2 hlog)
  have hne : m ≠ 0 := by
    rintro rfl
    rw [Nat.zero_div] at hlow
    omega
  have hhigh : m / 2 ^ s < 2 ^ 53 := by
    rw [Nat.div_lt_iff_lt_mul (Nat.two_pow_pos s), ← pow_add]
    exact (Nat.log2_lt hne).mp (by omega)
  have hcases := (shifted_repeat m s).roundedMantissa_cases
  unfold roundedAt
  omega

/-- Without a carry the second shift changes nothing. -/
theorem roundWithAccuracy_of_lt {s : Nat} (hlog : m.log2 = 52 + s) (hmin : -1074 ≤ e)
    (hlt : roundedAt m s < 2 ^ 53) : roundWithAccuracy .binary64 .positive m e .exact =
      .finite .positive (roundedAt m s) (e + s)
        ((Nat.two_pow_pos 52).trans_le (roundedAt_bounds hlog).1) := by
  have hlow := (roundedAt_bounds hlog).1
  have hrounded : ((⟨m, false, false⟩ : ExtendedMantissa) >>> s).roundedMantissa =
      roundedAt m s := rfl
  have hsecond := shiftToTargetExponent_eq (s := 0) (log2_eq hlow hlt)
    (show -1074 ≤ e + s by omega)
  have hkept : ((⟨roundedAt m s, false, false⟩ : ExtendedMantissa) >>> 0).mantissa =
      roundedAt m s := rfl
  simp only [roundWithAccuracy, shiftToTargetExponent_eq hlog hmin, hrounded, hsecond, hkept,
    Int.ofNat_zero, add_zero]
  exact dif_neg (by omega)

/-- With a carry it drops the last bit, which is clear. -/
theorem roundWithAccuracy_of_carry {s : Nat} (hlog : m.log2 = 52 + s) (hmin : -1074 ≤ e)
    (hcarry : roundedAt m s = 2 ^ 53) : roundWithAccuracy .binary64 .positive m e .exact =
      .finite .positive (2 ^ 52) (e + s + 1) (Nat.two_pow_pos 52) := by
  have hrounded : ((⟨m, false, false⟩ : ExtendedMantissa) >>> s).roundedMantissa =
      roundedAt m s := rfl
  have hsecond := shiftToTargetExponent_eq (s := 1) (log2_eq hcarry.ge (by omega))
    (show -1074 ≤ e + s by omega)
  have hhalved : ((⟨roundedAt m s, false, false⟩ : ExtendedMantissa) >>> 1).mantissa =
      2 ^ 52 := congrArg (· / 2) hcarry
  simp only [roundWithAccuracy, shiftToTargetExponent_eq hlog hmin, hrounded, hsecond, hhalved]
  exact dif_neg (by omega)

/-- **The value of a rounded mantissa**, and the last bit of its word. -/
theorem value_roundWithAccuracy {s : Nat} (hlog : m.log2 = 52 + s) (hmin : -1074 ≤ e)
    (hmax : e + s ≤ 970) :
    let x := Float.ofModel (.pack (roundWithAccuracy .binary64 .positive m e .exact))
    exactValue? x = some (roundedAt m s * 2 ^ (e + s) : ℚ) ∧
      (Even (roundedAt m s) → Even x.toBits.toNat) := by
  obtain ⟨hlow, hhigh⟩ := roundedAt_bounds hlog
  rcases hhigh.lt_or_eq with hlt | hcarry
  · rw [roundWithAccuracy_of_lt hlog hmin hlt]
    exact value_pack _ hlow hlt (by omega) (by omega)
  · have hvalue : ((2 ^ 52 : Nat) : ℚ) * 2 ^ (e + s + 1) = (2 ^ 53 : Nat) * 2 ^ (e + s) := by
      rw [zpow_add_one₀ two_ne_zero]
      push_cast
      ring
    rw [roundWithAccuracy_of_carry hlog hmin hcarry, hcarry, ← hvalue]
    obtain ⟨hexact, heven⟩ := value_pack (m := 2 ^ 52) (by omega) le_rfl (by omega)
      (show -1074 ≤ e + s + 1 by omega) (by omega)
    exact ⟨hexact, fun _ => heven (by decide)⟩

/-- **Rounding finds the nearest double.** -/
theorem nearestDouble_roundWithAccuracy {s : Nat} (hlog : m.log2 = 52 + s) (hmin : -1074 ≤ e)
    (hmax : e + s ≤ 970) :
    NearestDouble (m * 2 ^ e)
      (.ofModel (.pack (roundWithAccuracy .binary64 .positive m e .exact)))
      (roundedAt m s * 2 ^ (e + s)) := by
  obtain ⟨hvalue, heven⟩ := value_roundWithAccuracy hlog hmin hmax
  obtain ⟨hnear, htie⟩ := (shifted_repeat m s).roundedMantissa_near
  change 2 * |(roundedAt m s * 2 ^ s - m : ℤ)| ≤ 2 ^ s at hnear
  change 2 * |(roundedAt m s * 2 ^ s - m : ℤ)| = 2 ^ s → Even (roundedAt m s) at htie
  have hpos : (0 : ℚ) < 2 ^ e := zpow_pos two_pos e
  have hunit : (2 : ℚ) ^ (e + s) = 2 ^ s * 2 ^ e := by
    rw [zpow_add₀ two_ne_zero, zpow_natCast, mul_comm]
  have haway : 2 * |((roundedAt m s : ℤ) : ℚ) * 2 ^ (e + s) - m * 2 ^ e| =
      (2 * |(roundedAt m s * 2 ^ s - m : ℤ)| : ℤ) * 2 ^ e := by
    have hfactor : ((roundedAt m s : ℤ) : ℚ) * 2 ^ (e + s) - m * 2 ^ e =
        (roundedAt m s * 2 ^ s - m : ℤ) * 2 ^ e := by
      rw [hunit]
      push_cast
      ring
    rw [hfactor, abs_mul, abs_of_pos hpos]
    push_cast
    ring
  have hhalf : (2 : ℚ) ^ (e + s) = (2 ^ s : ℤ) * 2 ^ e := by
    rw [hunit]
    push_cast
    rfl
  refine nearestDouble_of_near (n := roundedAt m s) hvalue ?_ ?_ ?_
  · have hlarge := large_of_log2 hlog
    calc (2 : ℚ) ^ 52 * 2 ^ (e + s) = (2 ^ 52 * 2 ^ s : Nat) * 2 ^ e := by
          rw [hunit]
          push_cast
          ring
      _ ≤ m * 2 ^ e := mul_le_mul_of_nonneg_right (by exact_mod_cast hlarge) hpos.le
  · rw [haway, hhalf]
    exact mul_le_mul_of_nonneg_right (by exact_mod_cast hnear) hpos.le
  · intro h
    rw [haway, hhalf, mul_left_inj' hpos.ne'] at h
    exact heven (htie (by exact_mod_cast h))

end Rounding

/-! ## Natural numbers -/

section Naturals

variable {k : Nat}

theorem log2_shiftLeft (hpos : 0 < k) (d : Nat) : (k <<< d).log2 = k.log2 + d := by
  have hlow := Nat.log2_self_le hpos.ne'
  have hhigh := Nat.lt_log2_self (n := k)
  rw [Nat.shiftLeft_eq]
  apply log2_eq
  · rw [pow_add]
    exact Nat.mul_le_mul_right _ hlow
  · rw [Nat.add_right_comm, pow_add]
    exact Nat.mul_lt_mul_of_pos_right hhigh (Nat.two_pow_pos d)

theorem shiftLeft_pos (hpos : 0 < k) (d : Nat) : 0 < k <<< d :=
  Nat.shiftLeft_eq k d ▸ Nat.mul_pos hpos (Nat.two_pow_pos d)

theorem shiftLeft_mul_zpow (k d : Nat) : ((k <<< d : Nat) : ℚ) * 2 ^ (-(d : ℤ)) = k := by
  rw [Nat.shiftLeft_eq, zpow_neg, zpow_natCast]
  push_cast
  exact mul_inv_cancel_right₀ (pow_ne_zero d two_ne_zero) _

/-- A number of more than 53 bits is rounded at once. -/
theorem ofNat_of_le (hlarge : 2 ^ 53 ≤ k) : Float.ofNat k =
    .ofModel (.pack (roundWithAccuracy .binary64 .positive (k <<< 53) (-53) .exact)) := by
  have hslow : Float.ofNat k = .ofModel (.ofScientific k 0) := dif_neg fun h => by omega
  have hnormal : ¬(0 : ℤ) < -((2 ^ 11 : ℤ) + k.log2) := by omega
  have hone : k <<< 53 * 10 ^ (0 : ℤ).toNat = k <<< 53 := Nat.mul_one _
  rw [hslow, Float.Model.ofScientific, UnpackedFloat.ofScientific, dif_neg (by omega),
    if_neg (by decide), if_neg hnormal, if_pos le_rfl]
  change Float.ofModel (.pack (roundWithAccuracy .binary64 .positive
    (k <<< 53 * 10 ^ (0 : ℤ).toNat) (-53) .exact)) = _
  rw [hone]

/-- One, unpacked. -/
theorem unpack_one : (Float.ofBits 0x3FF0000000000000).toModel.unpack =
    .finite .positive (2 ^ 52) (-52) (Nat.two_pow_pos 52) := rfl

/-- Scaling up to 53 bits loses nothing. -/
theorem unpack_toFloat {d : Nat} (hpos : 0 < k) (hd : k.log2 + d = 52) :
    k.toUInt64.toFloat.toModel.unpack =
      .finite .positive (k <<< d) (-d) (shiftLeft_pos hpos d) := by
  have hlog : (k <<< d).log2 = 52 + 0 := (log2_shiftLeft hpos d).trans hd
  have hne : k <<< d ≠ 0 := (shiftLeft_pos hpos d).ne'
  have hlow : 2 ^ 52 ≤ k <<< d := (Nat.le_log2 hne).mp hlog.ge
  have hhigh : k <<< d < 2 ^ 53 := (Nat.log2_lt hne).mp (by omega)
  have hword : k.toUInt64.toNat = k := by
    have hsmall : k < 2 ^ 53 := (Nat.log2_lt hpos.ne').mp (by omega)
    exact Nat.mod_eq_of_lt (by omega)
  have hcompare : compare (k : ℤ) 0 = .gt := compare_gt_iff_gt.mpr (by omega)
  have htarget : Format.binary64.targetExponent (totalExponent k 0) = -d := by
    have hbits : (Format.binary64.mantissaBits : ℤ) = 53 := rfl
    have hleast : Format.binary64.minExponent = -1074 := rfl
    rw [Format.targetExponent, totalExponent, hbits, hleast]
    omega
  have hscale : decreaseExponent k 0 (-d) = (k <<< d, (-d : ℤ)) := by
    have hshift : (0 - -(d : ℤ)).toNat = d := by omega
    rw [decreaseExponent, hshift, zero_sub]
  have hround : UnpackedFloat.ofNat .binary64 k =
      roundWithAccuracy .binary64 .positive (k <<< d) (-d) .exact := by
    rw [UnpackedFloat.ofNat, UnpackedFloat.ofInt, UnpackedFloat.normalize, hcompare]
    simp only [UnpackedFloat.round, Int.toNat_natCast, htarget, hscale]
  change (Float.Model.pack (UnpackedFloat.ofNat .binary64 k.toUInt64.toNat)).unpack = _
  have hexact : roundWithAccuracy .binary64 .positive (k <<< d) (-d) .exact =
      .finite .positive (k <<< d) (-d) (Nat.pos_of_ne_zero hne) := by
    rw [roundWithAccuracy_of_lt hlog (by omega) hhigh]
    simp only [Int.ofNat_zero, add_zero]
    rfl
  rw [hword, hround, hexact, unpack_pack _ hlow hhigh (by omega) (by omega)]

/-- Any other one is scaled up to just as many, which loses nothing, and multiplied by one. -/
theorem ofNat_of_lt {d : Nat} (hpos : 0 < k) (hd : k.log2 + d = 52) : Float.ofNat k = .ofModel
    (.pack (roundWithAccuracy .binary64 .positive (k <<< (d + 52)) (-(d + 52 : Nat)) .exact)) := by
  have hsmall : k < 2 ^ 53 := (Nat.log2_lt hpos.ne').mp (by omega)
  have hfast : Float.ofNat k = k.toUInt64.toFloat * Float.ofBits 0x3FF0000000000000 :=
    dif_pos ⟨hsmall, by omega⟩
  have hproduct : k <<< d * 2 ^ 52 = k <<< (d + 52) := by
    rw [Nat.shiftLeft_add, Nat.shiftLeft_eq (k <<< d)]
  have hexponent : -(d : ℤ) + -52 = -(d + 52 : Nat) := by omega
  rw [hfast]
  change Float.ofModel (.pack (UnpackedFloat.mul .binary64 _ _)) = _
  rw [unpack_toFloat hpos hd, unpack_one, ← hproduct, ← hexponent]
  rfl

/-- The number is shifted up and rounded, in either case. -/
theorem exists_shift (hpos : 0 < k) : ∃ c : Nat, 52 ≤ k.log2 + c ∧ c ≤ 104 ∧ Float.ofNat k =
    .ofModel (.pack (roundWithAccuracy .binary64 .positive (k <<< c) (-c) .exact)) := by
  by_cases hsmall : k < 2 ^ 53
  · have hlog := (Nat.log2_lt hpos.ne').mpr hsmall
    exact ⟨52 - k.log2 + 52, by omega, by omega, ofNat_of_lt hpos (by omega)⟩
  · exact ⟨53, by omega, by omega, ofNat_of_le (not_lt.mp hsmall)⟩

theorem exactValue?_toFloat (hpos : 0 < k) (hsmall : k < 2 ^ 53) :
    exactValue? k.toUInt64.toFloat = some (k : ℚ) := by
  obtain ⟨d, hd⟩ : ∃ d, k.log2 + d = 52 := by
    have := (Nat.log2_lt hpos.ne').mpr hsmall
    exact ⟨52 - k.log2, by omega⟩
  rw [exactValue?, unpack_toFloat hpos hd, unpackedValue?_finite, ← shiftLeft_mul_zpow k d]
  rfl

/-- A natural number of at most 53 bits is a double, and so is the first one of 54. -/
theorem exists_exact (hsmall : k ≤ 2 ^ 53) : ∃ y, exactValue? y = some (k : ℚ) := by
  rcases hsmall.lt_or_eq with hlt | rfl
  · rcases k.eq_zero_or_pos with rfl | hpos
    · exact ⟨Float.ofBits 0, by rw [Nat.cast_zero]; rfl⟩
    · exact ⟨_, exactValue?_toFloat hpos hlt⟩
  · have hinteger : (Binary64.ofFloat (Float.ofNat (2 ^ 53))).integer? = some (2 ^ 53) := by
      decide
    refine ⟨Float.ofNat (2 ^ 53), ?_⟩
    rw [← Binary64.value?_ofFloat, Binary64.integer?_eq_some.mp hinteger]
    push_cast
    rfl

/-- **The conversion of a natural number finds the nearest double**, whose value is a natural
number again. -/
theorem nearestDouble_ofNat (hsize : k < 2 ^ 64) :
    ∃ n : Nat, NearestDouble k (Float.ofNat k) n := by
  rcases k.eq_zero_or_pos with rfl | hpos
  · refine ⟨0, ?_⟩
    rw [Nat.cast_zero]
    exact .of_exact rfl
  obtain ⟨c, hbits, hc, heq⟩ := exists_shift hpos
  have hlog : (k <<< c).log2 = 52 + (k.log2 + c - 52) := by
    rw [log2_shiftLeft hpos]
    omega
  have hlarge : k.log2 < 64 := (Nat.log2_lt hpos.ne').mpr hsize
  have hnearest := nearestDouble_roundWithAccuracy (e := -c) hlog (by omega) (by omega)
  rw [shiftLeft_mul_zpow, ← heq] at hnearest
  -- the unit is an integer, or the number is exact
  by_cases hsmall : k < 2 ^ 53
  · rw [hnearest.eq_of_exact (exactValue?_toFloat hpos hsmall)] at hnearest
    exact ⟨k, hnearest⟩
  · have h53 : 53 ≤ k.log2 := (Nat.le_log2 hpos.ne').mpr (not_lt.mp hsmall)
    have hunit : (-c + (k.log2 + c - 52 : Nat) : ℤ) = (k.log2 - 52 : Nat) := by omega
    rw [hunit, zpow_natCast] at hnearest
    exact ⟨_ * 2 ^ (k.log2 - 52), by push_cast; exact hnearest⟩

end Naturals

/-! ## Literals in conditions -/

theorem isFinite_of_exactValue? {x : Float} {v : ℚ} (h : exactValue? x = some v) :
    Scalar.isFinite x = true := by
  change x.toModel.unpack.isFinite = true
  unfold exactValue? at h
  generalize x.toModel.unpack = unpacked at h
  cases unpacked with
  | infinity | notANumber => cases h
  | zero | finite => rfl

namespace Executor

variable {x : Executor Float} {register : Operand} {r : ClassicalRegister} {k : Nat}

/-- **Comparing a whole register with a literal.** A literal `k` stands for the double nearest to
it, whose value is an integer. An `if` runs its operation exactly when the register writes that
integer, and changes nothing otherwise. The integer is `k` itself wherever a double has that value,
and so for all numbers up to `2 ^ 53`. -/
theorem execute_literal (hindex : register.index = none)
    (hr : x.machine.classicalRegister register.name = .ok r) (hsize : k < 2 ^ 64)
    (operation : Operation) (pos position blamed : SourcePos) :
    ∃ n : Nat, NearestDouble k (Scalar.ofNat k) n ∧
      ((∃ y, exactValue? y = some (k : ℚ)) → n = k) ∧ (k ≤ 2 ^ 53 → n = k) ∧
      x.execute ⟨.conditional register (.integer k pos) operation position, blamed⟩ =
        if r.number = n then x.execute ⟨.operation operation, blamed⟩ else ⟨x, none⟩ := by
  obtain ⟨n, hnearest⟩ := nearestDouble_ofNat hsize
  have hexact (h : ∃ y, exactValue? y = some (k : ℚ)) : n = k := by
    obtain ⟨y, hy⟩ := h
    exact_mod_cast hnearest.eq_of_exact hy
  refine ⟨n, hnearest, hexact, fun hsmall => hexact (exists_exact hsmall), ?_⟩
  have hvalue : (Expr.integer k pos).evaluate ([] : Bindings Float) = .ok (Scalar.ofNat k) :=
    Expr.finite_eq_ok.mpr ⟨isFinite_of_exactValue? hnearest.value, rfl⟩
  have hrounded : Scalar.nearest (Scalar.ofNat k : Float) = (n : ℤ) :=
    (Binary64.nearest_eq ((Binary64.value?_ofFloat _).trans hnearest.value)).trans
      (halfAway_intCast n)
  rw [execute, perform, Machine.condition_eq hindex hr hvalue, hrounded]
  by_cases htaken : r.number = n
  · rw [if_pos htaken, ClassicalRegister.reads_iff.mpr (congrArg Nat.cast htaken).symm]
    rfl
  · have hread : r.reads n = false := Bool.eq_false_iff.mpr fun h =>
      htaken (Int.ofNat_inj.mp (ClassicalRegister.reads_iff.mp h)).symm
    rw [if_neg htaken, hread]
    rfl

/-- A register of 54 bits that writes `2 ^ 53`. -/
def wideRegister : ClassicalRegister := ⟨"c", List.replicate 53 false ++ [true]⟩

/-- Nothing but this register. -/
def wideExecutor : Executor Float :=
  ⟨{ Machine.initial 4 fun _ => 0 with classical := [wideRegister] }, []⟩

/-- `if (c == 9007199254740993) reset c;`, where the literal is no double. -/
def wideConditional : Statement :=
  ⟨.conditional ⟨"c", none, default⟩ (.integer 9007199254740993 default)
    (.reset ⟨"c", none, default⟩) default, default⟩

theorem number_wideRegister : wideRegister.number = 9007199254740992 := by
  rw [ClassicalRegister.number_eq]
  decide

/-- The literal after `2 ^ 53` stands for `2 ^ 53`. -/
theorem execute_literal_wide : wideExecutor.execute wideConditional =
    wideExecutor.execute ⟨.operation (.reset ⟨"c", none, default⟩), default⟩ := by
  have hindex : Operand.index ⟨"c", none, default⟩ = none := rfl
  have hregister : wideExecutor.machine.classicalRegister "c" = .ok wideRegister := rfl
  obtain ⟨n, hnearest, -, -, hrun⟩ := execute_literal hindex hregister
    (show 9007199254740993 < 2 ^ 64 by omega) (.reset ⟨"c", none, default⟩) default default default
  have hinteger : (Binary64.ofFloat (Float.ofNat 9007199254740993)).integer? =
      some 9007199254740992 := by decide
  have hvalue := (Binary64.value?_ofFloat _).symm.trans (Binary64.integer?_eq_some.mp hinteger)
  have hn : (n : ℚ) = (9007199254740992 : ℤ) :=
    Option.some.inj (hnearest.value.symm.trans hvalue)
  have hn : n = 9007199254740992 := by exact_mod_cast hn
  rw [wideConditional, hrun, if_pos (number_wideRegister.trans hn.symm)]

/-- **A comparison with a literal is not exact**: the register does not write the literal, and the
operation is executed. -/
theorem execute_literal_inexact :
    wideExecutor.machine.classicalRegister "c" = .ok wideRegister ∧
    wideRegister.number ≠ 9007199254740993 ∧
    wideExecutor.execute wideConditional ≠ ⟨wideExecutor, none⟩ ∧
    wideExecutor.execute wideConditional =
      wideExecutor.execute ⟨.operation (.reset ⟨"c", none, default⟩), default⟩ := by
  have hnearest : (Binary64.ofFloat (Float.ofNat 9007199254740993)).nearest =
      9007199254740992 := by decide
  have hvalue : (Expr.integer 9007199254740993 default).evaluate ([] : Bindings Float) =
      .ok (Float.ofNat 9007199254740993) := by
    refine Expr.finite_eq_ok.mpr ⟨?_, rfl⟩
    decide
  have hread : wideRegister.reads 9007199254740992 = true :=
    ClassicalRegister.reads_iff.mpr (by rw [number_wideRegister]; rfl)
  have hrun : wideExecutor.execute wideConditional =
      wideExecutor.execute ⟨.operation (.reset ⟨"c", none, default⟩), default⟩ := by
    have hcondition : wideExecutor.machine.condition ⟨"c", none, default⟩
        (.integer 9007199254740993 default) = .ok true :=
      (Machine.condition_eq rfl rfl hvalue).trans
        (congrArg Except.ok ((congrArg wideRegister.reads hnearest).trans hread))
    rw [execute, wideConditional, perform, hcondition]
    rfl
  refine ⟨rfl, by rw [number_wideRegister]; omega, ?_, hrun⟩
  rw [hrun]
  -- the reset clears the last bit
  intro h
  have hbits := congrArg (fun after => after.state.machine.classical.map (·.bits)) h
  have hcleared : [List.replicate 54 false] = [wideRegister.bits] := hbits
  revert hcleared
  decide

end Executor

end OpenQasm
