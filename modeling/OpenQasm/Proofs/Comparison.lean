import Mathlib.Algebra.BigOperators.Fin
import Mathlib.Data.Rat.Floor
import Mathlib.Tactic.FieldSimp
import Mathlib.Tactic.Linarith
import Mathlib.Tactic.Positivity
import Mathlib.Tactic.Ring
import OpenQasm.Proofs.Fallible

/-!
# Comparing a register with a number

The bits of a register write a number `N`, however many they are. `value?` reads it as long as it
fits 64 bits. A comparison reads the exact value of a double instead, which is a rational number
with a power of two for its denominator, and takes off one bit after the other. Both agree with `N`.

The exact value of a double (`exactValue?`) is said by the sign, mantissa and exponent that the
model of doubles unpacks from its 64 bits. The reading of the project decodes the same bits with
divisions (`Binary64.ofBits`).

* `value?_eq`: the 64-bit reading.
* `writes_iff`: taking off bits of an integer decides whether they write it.
* `value?_ofFloat`: the two readings of a double agree, also on `-0.0`, infinities and NaNs.
* `integer?_eq_some`, `nearest_eq`: the integer that a double equals, and the nearest one.
* `holds_eq_peeled`: the same comparison, by arithmetic on the exact value alone.
* **`comparison_exact`**: all of it, and what an `if` on a whole register does.
-/

namespace OpenQasm

open BitIndex Float.Model UnpackedFloat

/-! ## The number that bits write -/

namespace BitIndex

theorem ofBits_cons (b : Bool) (bs : List Bool) : ofBits (b :: bs) = b.toNat + 2 * ofBits bs := rfl

theorem ofBits_eq_sum (bs : List Bool) :
    ofBits bs = ∑ i : Fin bs.length, bs[i].toNat * 2 ^ i.val := by
  induction bs with
  | nil => rfl
  | cons b bs ih =>
    have hrest (i : Fin bs.length) :
        2 * (bs[i].toNat * 2 ^ i.val) = bs[i].toNat * 2 ^ i.succ.val := by
      rw [Fin.val_succ, pow_succ]
      ring
    have hsum := Fin.sum_univ_succ fun i : Fin (b :: bs).length => (b :: bs)[i].toNat * 2 ^ i.val
    rw [ofBits_cons, ih, Finset.mul_sum, Finset.sum_congr rfl fun i _ => hrest i,
      ← Nat.mul_one b.toNat]
    exact hsum.symm

theorem ofBits_append (as bs : List Bool) :
    ofBits (as ++ bs) = ofBits as + 2 ^ as.length * ofBits bs := by
  induction as with
  | nil => simp [ofBits]
  | cons a as ih =>
    rw [List.cons_append, ofBits_cons, ofBits_cons, ih, List.length_cons]
    ring

theorem ofBits_lt (bs : List Bool) : ofBits bs < 2 ^ bs.length := by
  induction bs with
  | nil => exact Nat.one_pos
  | cons b bs ih =>
    have hb := Bool.toNat_le b
    rw [ofBits_cons, List.length_cons, Nat.pow_succ]
    omega

theorem ofBits_eq_zero {bs : List Bool} : ofBits bs = 0 ↔ bs.any id = false := by
  induction bs with
  | nil => exact ⟨fun _ => rfl, fun _ => rfl⟩
  | cons b bs ih => cases b <;> simp [ofBits_cons, ih]

end BitIndex

namespace ClassicalRegister

variable {r : ClassicalRegister}

/-- The number that the bits write, however many they are. -/
def number (r : ClassicalRegister) : Nat := ∑ i : Fin r.bits.length, r.bits[i].toNat * 2 ^ i.val

theorem number_eq (r : ClassicalRegister) : r.number = ofBits r.bits := (ofBits_eq_sum r.bits).symm

/-- **The 64-bit reading** is the number that the bits write, exactly where that fits. -/
theorem value?_eq (r : ClassicalRegister) :
    r.value? = if r.number < 2 ^ 64 then some r.number else none := by
  have hsplit : r.number = ofBits (r.bits.take 64) +
      2 ^ (r.bits.take 64).length * ofBits (r.bits.drop 64) := by
    rw [number_eq, ← ofBits_append, List.take_append_drop]
  have hlow := ofBits_lt (r.bits.take 64)
  unfold value?
  cases hany : (r.bits.drop 64).any id with
  | false =>
    have hhigh := ofBits_eq_zero.mpr hany
    have hfits := Nat.pow_le_pow_right Nat.two_pos (List.length_take_le 64 r.bits)
    have hnumber : r.number = ofBits (r.bits.take 64) := by rw [hsplit, hhigh]; rfl
    rw [if_neg Bool.false_ne_true, if_pos (hnumber ▸ hlow.trans_le hfits), hnumber]
  | true =>
    have hhigh : 0 < ofBits (r.bits.drop 64) :=
      Nat.pos_of_ne_zero fun h => Bool.false_ne_true ((ofBits_eq_zero.mp h).symm.trans hany)
    -- a bit beyond the 64th is there only if the first 64 are
    have hlength : (r.bits.take 64).length = 64 := by
      obtain ⟨b, hb, -⟩ := List.any_eq_true.mp hany
      have := List.length_pos_of_mem hb
      rw [List.length_drop] at this
      rw [List.length_take]
      omega
    have hlarge : ¬r.number < 2 ^ 64 := by
      rw [hsplit, hlength]
      omega
    rw [if_pos rfl, if_neg hlarge]

/-! ## Taking bits off an integer -/

theorem writes_iff {bs : List Bool} {n : Nat} : writes bs n = true ↔ n = ofBits bs := by
  induction bs generalizing n with
  | nil => exact beq_iff_eq
  | cons b bs ih =>
    have hb := Bool.toNat_le b
    rw [writes, Bool.and_eq_true, beq_iff_eq, ih, ofBits_cons]
    omega

theorem reads_iff {z : Int} : r.reads z = true ↔ z = r.number := by
  rw [reads, Bool.and_eq_true, decide_eq_true_iff, writes_iff, number_eq]
  omega

end ClassicalRegister

/-! ## The exact value of a double -/

/-- The number that an unpacked float stands for, if it is finite. -/
def unpackedValue? : UnpackedFloat → Option ℚ
  | .notANumber | .infinity _ => none
  | .zero _ => some 0
  | .finite sign mantissa exponent _ => some (sign.apply mantissa * 2 ^ exponent)

theorem unpackedValue?_zero (sign : Sign) : unpackedValue? (.zero sign) = some 0 := rfl

theorem unpackedValue?_finite (sign : Sign) (mantissa : Nat) (exponent : Int)
    (hpos : 0 < mantissa) : unpackedValue? (.finite sign mantissa exponent hpos) =
      some (sign.apply mantissa * 2 ^ exponent : ℚ) := rfl

/-- The exact value of a double, if it is finite. -/
def exactValue? (x : Float) : Option ℚ := unpackedValue? x.toModel.unpack

theorem exists_exactValue? {x : Float} (h : x.isFinite = true) : ∃ q, exactValue? x = some q := by
  have h : x.toModel.unpack.isFinite = true := h
  unfold exactValue?
  generalize x.toModel.unpack = unpacked at h
  match unpacked with
  | .zero _ => exact ⟨_, rfl⟩
  | .finite .. => exact ⟨_, rfl⟩

/-- The nearest integer, a half going away from zero. -/
def halfAway (q : ℚ) : ℤ := if q < 0 then ⌈q - 1 / 2⌉ else ⌊q + 1 / 2⌋

theorem halfAway_intCast (z : ℤ) : halfAway z = z := by
  unfold halfAway
  split_ifs
  · rw [Int.ceil_eq_iff]
    constructor <;> linarith
  · rw [Int.floor_eq_iff]
    constructor <;> linarith

theorem halfAway_of_nonneg {q : ℚ} (h : 0 ≤ q) : halfAway q = ⌊q + 1 / 2⌋ := if_neg h.not_gt

theorem halfAway_neg {q : ℚ} (h : 0 ≤ q) : halfAway (-q) = -halfAway q := by
  rcases h.eq_or_lt with rfl | hpos
  · norm_num [halfAway]
  · rw [halfAway_of_nonneg h, halfAway, if_pos (neg_lt_zero.mpr hpos), ← neg_add', Int.ceil_neg]

namespace Binary64

variable {b : Binary64} {q : ℚ}

/-- The number itself, if it is finite. -/
def value? : Binary64 → Option ℚ
  | .nan | .infinite _ => none
  | .finite negative significand exponent => some (signed negative significand * 2 ^ exponent)

theorem signed_cast (negative : Bool) (magnitude : Nat) :
    (signed negative magnitude : ℚ) = if negative then -(magnitude : ℚ) else magnitude := by
  cases negative <;> simp [signed]

/-- A finite number is a fraction, up to its sign. -/
theorem exists_fraction (negative : Bool) (significand : Nat) (exponent : Int) :
    ∃ num den : Nat, 0 < den ∧ quotient significand exponent = (num, den) ∧
      (finite negative significand exponent).value? =
        some (if negative then -(num / den) else num / den : ℚ) := by
  have hvalue : (finite negative significand exponent).value? = some (if negative
      then -(significand * 2 ^ exponent : ℚ) else significand * 2 ^ exponent) := by
    rw [value?, signed_cast]
    cases negative <;> simp
  rw [hvalue]
  unfold quotient
  split
  · next h =>
    obtain ⟨n, rfl⟩ := Int.eq_ofNat_of_zero_le h
    exact ⟨_, _, Nat.one_pos, rfl, by simp⟩
  · next h =>
    obtain ⟨n, rfl⟩ : ∃ n : Nat, exponent = -n := ⟨(-exponent).toNat, by omega⟩
    exact ⟨_, _, Nat.pow_pos Nat.two_pos, rfl, by simp [div_eq_mul_inv]⟩

/-- **The integer that a number equals.** -/
theorem integer?_eq_some {z : Int} : b.integer? = some z ↔ b.value? = some (z : ℚ) := by
  cases b with
  | nan => exact ⟨nofun, nofun⟩
  | infinite => exact ⟨nofun, nofun⟩
  | finite negative significand exponent =>
    obtain ⟨num, den, hpos, hquotient, hvalue⟩ := exists_fraction negative significand exponent
    rw [integer?, hquotient, hvalue, Option.some_inj]
    dsimp only
    have hden : (den : ℚ) ≠ 0 := Nat.cast_ne_zero.mpr hpos.ne'
    by_cases hdvd : num % den = 0
    · obtain ⟨k, rfl⟩ := Nat.dvd_of_mod_eq_zero hdvd
      have hk : ((den * k : Nat) / den : ℚ) = k := by
        rw [Nat.cast_mul, mul_div_cancel_left₀ _ hden]
      rw [if_pos hdvd, Nat.mul_div_cancel_left k hpos, Option.some_inj, hk, ← signed_cast,
        Int.cast_inj]
    · rw [if_neg hdvd]
      refine ⟨nofun, fun h => absurd ?_ hdvd⟩
      -- up to the sign, the integer is the quotient
      obtain ⟨w, hw⟩ : ∃ w : ℤ, (num / den : ℚ) = w := by
        cases negative with
        | false => exact ⟨z, h⟩
        | true => exact ⟨-z, by rw [Int.cast_neg, ← h, if_pos rfl, neg_neg]⟩
      have hnum : (num : ℤ) = den * w := by
        rw [div_eq_iff hden, mul_comm] at hw
        exact_mod_cast hw
      exact Nat.mod_eq_zero_of_dvd (Int.natCast_dvd_natCast.mp ⟨w, hnum⟩)

/-- **The nearest integer.** -/
theorem nearest_eq (h : b.value? = some q) : b.nearest = halfAway q := by
  cases b with
  | nan => cases h
  | infinite => cases h
  | finite negative significand exponent =>
    obtain ⟨num, den, hpos, hquotient, hvalue⟩ := exists_fraction negative significand exponent
    obtain rfl := Option.some.inj (hvalue.symm.trans h)
    rw [nearest, hquotient]
    dsimp only
    have hden : (den : ℚ) ≠ 0 := Nat.cast_ne_zero.mpr hpos.ne'
    have hnonneg : (0 : ℚ) ≤ num / den := by positivity
    have hfloor : halfAway (num / den : ℚ) = ((2 * num + den) / (2 * den) : Nat) := by
      have hadd : (num / den + 1 / 2 : ℚ) = (2 * num + den : Nat) / (2 * den : Nat) := by
        push_cast
        field_simp
      rw [halfAway_of_nonneg hnonneg, hadd, Rat.floor_natCast_div_natCast, Int.natCast_ediv]
    cases negative with
    | false => exact hfloor.symm
    | true => exact (congrArg Neg.neg hfloor.symm).trans (halfAway_neg hnonneg).symm

/-! ## The two readings of a double -/

variable (word : BitVec Format.binary64.numBits)

theorem toNat_unpackMantissa : (unpackMantissa word).toNat = word.toNat % Nat.pow 2 52 :=
  BitVec.extractLsb_toNat 51 0 word

theorem toNat_unpackExponent :
    (unpackExponent word).toNat = word.toNat / Nat.pow 2 52 % Nat.pow 2 11 := by
  refine (BitVec.extractLsb_toNat 62 52 word).trans ?_
  rw [Nat.shiftRight_eq_div_pow]

theorem toNat_unpackSign : (unpackSign word).toNat = word.toNat / Nat.pow 2 63 % 2 := by
  refine (BitVec.extractLsb_toNat 63 63 word).trans ?_
  rw [Nat.shiftRight_eq_div_pow]

theorem toNat_implicit : (1#1 ++ unpackMantissa word).toNat =
    Nat.pow 2 52 + word.toNat % Nat.pow 2 52 := by
  have hlt := (unpackMantissa word).isLt
  rw [BitVec.toNat_append, ← Nat.shiftLeft_add_eq_or_of_lt hlt, toNat_unpackMantissa]
  rfl

theorem apply_unpackSign (magnitude : Nat) :
    (Sign.ofBitVec (unpackSign word)).apply magnitude =
      signed (word.toNat / Nat.pow 2 63 % 2 == 1) magnitude := by
  rw [← toNat_unpackSign]
  generalize unpackSign word = bit
  rcases BitVec.eq_zero_or_eq_one bit with rfl | rfl <;> rfl

/-- **The two readings of 64 bits agree.** -/
theorem value?_ofBits : (Binary64.ofBits word.toNat).value? =
    unpackedValue? (UnpackedFloat.unpack .binary64 word) := by
  have hfull : unpackExponent word = -1#_ ↔
      word.toNat / Nat.pow 2 52 % Nat.pow 2 11 = 2047 := by
    rw [← toNat_unpackExponent, ← BitVec.toNat_inj]
    rfl
  have hempty : unpackExponent word = 0#_ ↔
      word.toNat / Nat.pow 2 52 % Nat.pow 2 11 = 0 := by
    rw [← toNat_unpackExponent, ← BitVec.toNat_inj]
    rfl
  have hzero : unpackMantissa word = 0#_ ↔
      word.toNat % Nat.pow 2 52 = 0 := by
    rw [← toNat_unpackMantissa, ← BitVec.toNat_inj]
    rfl
  unfold Binary64.ofBits UnpackedFloat.unpack
  dsimp only
  -- infinities and NaNs, then zeros and subnormal numbers, then normal ones
  by_cases hfield : word.toNat / Nat.pow 2 52 % Nat.pow 2 11 = 2047
  · rw [if_pos hfield, if_pos (hfull.mpr hfield)]
    by_cases hfraction : word.toNat % Nat.pow 2 52 = 0
    · rw [if_pos hfraction, if_pos (hzero.mpr hfraction)]
      rfl
    · rw [if_neg hfraction, if_neg (hzero.not.mpr hfraction)]
      rfl
  rw [if_neg hfield, if_neg (hfull.not.mpr hfield)]
  by_cases hsmall : word.toNat / Nat.pow 2 52 % Nat.pow 2 11 = 0
  · rw [if_pos hsmall, if_pos (hempty.mpr hsmall)]
    by_cases hfraction : word.toNat % Nat.pow 2 52 = 0
    · rw [dif_pos (hzero.mpr hfraction), unpackedValue?_zero, hfraction, value?, signed_cast]
      simp
    · rw [dif_neg (hzero.not.mpr hfraction), unpackedValue?_finite, apply_unpackSign,
        toNat_unpackMantissa, toNat_unpackExponent, hsmall]
      rfl
  · rw [if_neg hsmall, if_neg (hempty.not.mpr hsmall), unpackedValue?_finite, apply_unpackSign,
      toNat_implicit, toNat_unpackExponent]
    rfl

/-- **The two readings of a double agree.** -/
theorem value?_ofFloat (x : Float) : (ofFloat x).value? = exactValue? x :=
  value?_ofBits x.toModel.toBits.toBitVec

end Binary64

/-! ## Taking bits off an exact value -/

namespace ClassicalRegister

/-- Whether these bits write a number, by arithmetic on the number alone: its lowest bit is
compared, and taken off before the rest is halved. -/
def peeled : List Bool → ℚ → Bool
  | [], rest => decide (rest = 0)
  | b :: bs, rest =>
    let low := rest - 2 * ⌊rest / 2⌋
    decide (low = b.toNat) && peeled bs ((rest - low) / 2)

theorem peeled_natCast (bs : List Bool) (n : Nat) : peeled bs n = writes bs n := by
  induction bs generalizing n with
  | nil => exact decide_eq_decide.mpr Nat.cast_eq_zero
  | cons b bs ih =>
    have hdiv : (n : ℚ) = (n % 2 : Nat) + 2 * (n / 2 : Nat) := by
      exact_mod_cast (Nat.mod_add_div n 2).symm
    have hfloor : ⌊(n : ℚ) / 2⌋ = (n / 2 : Nat) := Rat.floor_natCast_div_natCast n 2
    have hlow : (n : ℚ) - 2 * ⌊(n : ℚ) / 2⌋ = (n % 2 : Nat) := by
      rw [hfloor, Int.cast_natCast]
      linarith
    have hrest : ((n : ℚ) - (n % 2 : Nat)) / 2 = (n / 2 : Nat) := by linarith
    have hbit : decide (((n % 2 : Nat) : ℚ) = b.toNat) = (n % 2 == b.toNat) :=
      decide_eq_decide.mpr Nat.cast_inj
    rw [peeled, writes, hlow, hrest, hbit, ih]

variable {r : ClassicalRegister}

/-- **A comparison is with the exact value**, whatever the width. -/
theorem holds_iff {x : Float} : r.holds x = true ↔ exactValue? x = some (r.number : ℚ) := by
  have hvalue (z : Int) : Scalar.integer? x = some z ↔ exactValue? x = some (z : ℚ) := by
    rw [← Binary64.value?_ofFloat]
    exact Binary64.integer?_eq_some
  rw [← Int.cast_natCast, ← hvalue, holds]
  cases Scalar.integer? x with
  | none => exact ⟨nofun, nofun⟩
  | some z => exact reads_iff.trans Option.some_inj.symm

theorem holds_eq_peeled (r : ClassicalRegister) (x : Float) :
    r.holds x = (exactValue? x).elim false fun q =>
      decide (0 ≤ q) && decide (Int.fract q = 0) && peeled r.bits q := by
  rw [Bool.eq_iff_iff, holds_iff]
  cases exactValue? x with
  | none => exact ⟨nofun, nofun⟩
  | some q =>
    rw [Option.some_inj, Option.elim_some, Bool.and_eq_true, Bool.and_eq_true, decide_eq_true_iff,
      decide_eq_true_iff]
    constructor
    · rintro rfl
      refine ⟨⟨Nat.cast_nonneg _, Int.fract_natCast _⟩, ?_⟩
      rw [peeled_natCast, writes_iff, number_eq]
    · rintro ⟨⟨hnonneg, hfract⟩, hpeeled⟩
      obtain ⟨z, rfl⟩ := Int.fract_eq_zero_iff.mp hfract
      obtain ⟨n, rfl⟩ := Int.eq_ofNat_of_zero_le (Int.cast_nonneg_iff.mp hnonneg)
      rw [Int.cast_natCast, peeled_natCast, writes_iff] at hpeeled
      rw [Int.cast_natCast, hpeeled, number_eq]

end ClassicalRegister

/-! ## Conditions -/

section Conditions

variable {R : Type} [Scalar R] {bindings : Bindings R}

/-- An expression has a finite value or none. -/
theorem Expr.isFinite_of_evaluate {e : Expr} {y : R} (h : e.evaluate bindings = .ok y) :
    Scalar.isFinite y = true := by
  have hfinite {e : Expr} {x : R} (h : e.finite x = .ok y) : Scalar.isFinite y = true := by
    obtain ⟨hx, rfl⟩ := finite_eq_ok.mp h
    exact hx
  cases e with
  | real | integer | pi =>
    rw [evaluate] at h
    exact hfinite h
  | operand v =>
    rw [evaluate] at h
    split at h
    · exact hfinite h
    · cases h
  | neg | call =>
    rw [evaluate] at h
    obtain ⟨_, -, h⟩ := bind_eq_ok.mp h
    exact hfinite h
  | binary =>
    rw [evaluate] at h
    obtain ⟨_, -, h⟩ := bind_eq_ok.mp h
    obtain ⟨_, -, h⟩ := bind_eq_ok.mp h
    exact hfinite h

/-- A condition on a whole register. -/
theorem Machine.condition_eq {m : Machine R} {r : ClassicalRegister} {register : Operand} {e : Expr}
    {y : R} (hindex : register.index = none) (hr : m.classicalRegister register.name = .ok r)
    (hy : e.evaluate ([] : Bindings R) = .ok y) :
    m.condition register e = .ok (r.reads (Scalar.nearest y)) := by
  rw [condition, hr, hy, hindex]
  rfl

end Conditions

namespace ClassicalRegister

/-- **A comparison is exact at any width.** Let `N` be the number that the bits of a register write.

* The 64-bit reading is `N` if that is below `2 ^ 64`, and there is none otherwise.
* The register compares equal to a double exactly if that is finite and its exact value is `N`; so
  does taking the bits off the exact value of the double, one at a time.
* An `if` on the register, whose condition has a value, runs its operation if that value, rounded to
  the nearest integer, is `N`, and changes nothing otherwise. -/
theorem comparison_exact (r : ClassicalRegister) :
    (r.value? = if r.number < 2 ^ 64 then some r.number else none) ∧
    (∀ x : Float, (r.holds x = true ↔ exactValue? x = some (r.number : ℚ)) ∧
      r.holds x = (exactValue? x).elim false fun q =>
        decide (0 ≤ q) && decide (Int.fract q = 0) && peeled r.bits q) ∧
    ∀ (x : Executor Float) register value operation pos y, register.index = none →
      x.machine.classicalRegister register.name = .ok r →
      value.evaluate ([] : Bindings Float) = .ok y →
      ∃ q, exactValue? y = some q ∧ x.perform (.conditional register value operation pos) =
        if halfAway q = r.number then x.withMachine (x.machine.operate x.gates operation)
        else ⟨x, none⟩ := by
  refine ⟨r.value?_eq, fun _ => ⟨holds_iff, r.holds_eq_peeled _⟩, ?_⟩
  intro x register value operation pos y hindex hr hy
  obtain ⟨q, hq⟩ := exists_exactValue? (Expr.isFinite_of_evaluate hy)
  refine ⟨q, hq, ?_⟩
  have hnearest : Scalar.nearest y = halfAway q :=
    Binary64.nearest_eq ((Binary64.value?_ofFloat y).trans hq)
  rw [Executor.perform, Machine.condition_eq hindex hr hy, hnearest]
  split_ifs with htaken
  · rw [reads_iff.mpr htaken]
  · rw [Bool.eq_false_iff.mpr (reads_iff.not.mpr htaken)]

/-- A register of 65 bits that writes `2 ^ 64`, and an `if` that compares it with a product. -/
theorem comparison_exact_wide :
    let r : ClassicalRegister := ⟨"c", List.replicate 64 false ++ [true]⟩
    let x : Executor Float := ⟨{ Machine.initial 4 fun _ => 0 with classical := [r] }, []⟩
    let operation := Operation.reset ⟨"c", none, default⟩
    let value := Expr.binary .mul (.integer 4294967296 default) (.integer 4294967296 default)
    r.value? = none ∧
      x.perform (.conditional ⟨"c", none, default⟩ value operation default) =
        x.withMachine (x.machine.operate x.gates operation) := by
  intro r x operation value
  have hexact := comparison_exact r
  have hnumber : r.number = 2 ^ 64 := by
    rw [number_eq]
    decide
  let y : Float := Float.ofNat 4294967296 * Float.ofNat 4294967296
  obtain ⟨q, hq, hperform⟩ :=
    hexact.2.2 x ⟨"c", none, default⟩ value operation default y rfl rfl rfl
  have hinteger : (Binary64.ofFloat y).integer? = some (2 ^ 64) := by decide
  have hproduct : exactValue? y = some ((2 ^ 64 : ℤ) : ℚ) :=
    (Binary64.value?_ofFloat y).symm.trans (Binary64.integer?_eq_some.mp hinteger)
  obtain rfl := Option.some.inj (hproduct.symm.trans hq)
  rw [hexact.1, hperform, hnumber, halfAway_intCast]
  exact ⟨if_neg (Nat.lt_irrefl _), if_pos rfl⟩

end ClassicalRegister

end OpenQasm
