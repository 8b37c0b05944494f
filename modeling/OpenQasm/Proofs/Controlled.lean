import OpenQasm.Proofs.Disjoint
import OpenQasm.Proofs.Rotations
import OpenQasm.Proofs.StandardLibrary

/-!
# The controlled rotations of the library

An operator on a control, bit `0`, and a target, bit `1`, that keeps the control acts as one
operator on the target where the control is clear and as another one where it is set (`select`). The
steps of the library's controlled rotations all do, so that their products are taken for each value
of the control apart (`product_select`), and what is left are products of rotations of one bit.

* `Gate.resolveAfter_select`: one step of a circuit on the two bits.
* `Gate.resolve_crz`, `Gate.resolve_cu1`, `Gate.resolve_cu3`: the circuits, by the algebra of
  rotations.
* **`controlled_rotations`**: what the gates amount to once the library has been executed.
-/

namespace OpenQasm

open BitIndex Kernel Finset

variable {A : Type}

/-! ## Operators that keep the control -/

namespace SquareMatrix

/-- The operator that acts on bit `1` as `clear` where bit `0` is clear and as `set` where it is
set. -/
def select [Zero A] (clear set : SquareMatrix A) : SquareMatrix A :=
  ofFn 4 fun i j =>
    if i % 2 = j % 2 then (if i % 2 = 0 then clear else set).get (i / 2) (j / 2) else 0

variable [CommRing A] {a b c d m : SquareMatrix A}

theorem get_select {i j : Nat} (hi : i < 4) (hj : j < 4) :
    (a.select b).get i j =
      if i % 2 = j % 2 then (if i % 2 = 0 then a else b).get (i / 2) (j / 2) else 0 :=
  get_ofFn _ hi hj

/-- Products are taken for each value of the control. -/
theorem product_select (ha : a.dim = 2) (hb : b.dim = 2) :
    (a.select b).product (c.select d) = (a.product c).select (b.product d) := by
  refine ext_get (d := 4) rfl rfl fun i j hi hj => ?_
  have hdiv : ∀ {k}, k < 4 → k / 2 < 2 := fun hk => Nat.div_lt_of_lt_mul hk
  rw [get_product (d := 4) rfl _ hi hj, get_select hi hj]
  -- the columns of the product are those of a control and a target
  calc ∑ k ∈ range 4, (a.select b).get i k * (c.select d).get k j
      = ∑ k ∈ range (2 * 2),
          ((if i % 2 = 0 then a else b).get (i / 2) (k / 2) *
              (if j % 2 = 0 then c else d).get (k / 2) (j / 2)) *
            (if i % 2 = k % 2 ∧ k % 2 = j % 2 then 1 else 0) := by
        refine sum_congr rfl fun k hk => ?_
        rw [get_select hi (mem_range.mp hk), get_select (mem_range.mp hk) hj]
        by_cases hik : i % 2 = k % 2
        · by_cases hkj : k % 2 = j % 2
          · simp only [hik, hkj, and_self, if_true, mul_one]
          · simp only [hkj, and_false, if_false, mul_zero]
        · simp only [hik, false_and, if_false, zero_mul, mul_zero]
    _ = (∑ k ∈ range 2, (if i % 2 = 0 then a else b).get (i / 2) k *
            (if j % 2 = 0 then c else d).get k (j / 2)) *
          ∑ k ∈ range 2, if i % 2 = k ∧ k = j % 2 then 1 else 0 := sum_grid_mul 2 2
        (fun k => (if i % 2 = 0 then a else b).get (i / 2) k *
          (if j % 2 = 0 then c else d).get k (j / 2))
        fun k => if i % 2 = k ∧ k = j % 2 then 1 else 0
    _ = _ := by
        by_cases hij : i % 2 = j % 2
        · have hone : ∑ k ∈ range 2, (if i % 2 = k ∧ k = j % 2 then (1 : A) else 0) = 1 := by
            rw [sum_eq_single_of_mem (i % 2) (mem_range.mpr (Nat.mod_lt _ Nat.two_pos))]
            · exact if_pos ⟨rfl, hij⟩
            · exact fun k _ hne => if_neg fun h => hne h.1.symm
          rw [hone, mul_one, if_pos hij, ← hij]
          by_cases hi0 : i % 2 = 0
          · simp only [if_pos hi0, get_product ha c (hdiv hi) (hdiv hj)]
          · simp only [if_neg hi0, get_product hb d (hdiv hi) (hdiv hj)]
        · rw [if_neg hij]
          refine mul_eq_zero_of_right _ (sum_eq_zero fun k _ => if_neg fun h => ?_)
          exact hij (h.1.trans h.2)

theorem select_identity : (identity 2 : SquareMatrix A).select (identity 2) = identity 4 := by
  refine ext_get (d := 4) rfl rfl fun i j hi hj => ?_
  rw [get_select hi hj, get_identity hi hj, ite_self,
    get_identity (Nat.div_lt_of_lt_mul hi) (Nat.div_lt_of_lt_mul hj), ← ite_and]
  exact if_congr (by omega) rfl rfl

theorem product_identity (hm : m.dim = 2) : m.product (identity 2) = m := by
  refine ext_toMatrix (d := 2) hm hm ?_
  rw [toMatrix_product hm, toMatrix_identity, mul_one]

theorem identity_product (hm : m.dim = 2) : (identity 2).product m = m := by
  refine ext_toMatrix (d := 2) rfl hm ?_
  rw [toMatrix_product (d := 2) rfl, toMatrix_identity, one_mul]

/-! ## Lifts -/

/-- An operator on all the bits is its own lift. -/
theorem lifted_range {n : Nat} (hm : m.dim = 2 ^ n) : lifted n m (List.range n) = m := by
  refine ext_get (d := 2 ^ n) rfl hm fun i j hi hj => ?_
  have hclear : ∀ {k}, k < 2 ^ n → clear (List.range n) k = 0 := by
    intro k hk
    refine ext_bits fun b => ?_
    rw [testBit_clear, Nat.zero_testBit]
    exact iff_of_false (fun h => h.2 (List.mem_range.mpr (lt_of_testBit hk h.1)))
      Bool.false_ne_true
  have hgather : ∀ {k}, k < 2 ^ n → gather (List.range n) k = k := by
    intro k hk
    have hblock : List.range n = block 0 n := by
      rw [block]
      exact (List.map_id'' (fun _ => Nat.zero_add _) _).symm
    rw [hblock, ← field_eq_gather, field, Nat.pow_eq, Nat.shiftRight_zero, Nat.mod_eq_of_lt hk]
  rw [get_lifted hi hj, hclear hi, hclear hj, if_pos rfl, hgather hi, hgather hj]

/-- An operator on the target does not depend on the control. -/
theorem lifted_target : lifted 2 m [1] = m.select m := by
  have hbits : ∀ k, k < 4 → clear [1] k = k % 2 ∧ gather [1] k = k / 2 := by decide
  refine ext_get (d := 4) rfl rfl fun i j hi hj => ?_
  rw [get_lifted (n := 2) hi hj, get_select hi hj, ite_self, (hbits i hi).1, (hbits j hj).1,
    (hbits i hi).2, (hbits j hj).2]

/-- A diagonal operator on the control multiplies the target. -/
theorem lifted_control (x y : A) :
    lifted 2 (Gate.square2 x 0 0 y) [0] =
      (Gate.square2 x 0 0 x).select (Gate.square2 y 0 0 y) := by
  refine ext_get (d := 4) rfl rfl fun i j hi hj => ?_
  rw [get_lifted (n := 2) hi hj, get_select hi hj]
  interval_cases i <;> interval_cases j <;> rfl

/-- A phase on everything, and another one where both bits are set. -/
theorem select_phase (x y : A) :
    (Gate.square2 x 0 0 x).select (Gate.square2 x 0 0 (x * y)) =
      ofFn 4 fun i j => if i = j then x * (if i = 3 then y else 1) else 0 := by
  refine ext_get (d := 4) rfl rfl fun i j hi hj => ?_
  rw [get_select hi hj, get_ofFn _ hi hj]
  interval_cases i <;> interval_cases j <;> simp [get, entry, Gate.square2]

end SquareMatrix

/-! ## Circuits -/

namespace Gate

section Steps

variable [CommRing A] [BEq A] [LawfulBEq A] {gate : Gate A} {operator before : SquareMatrix A}
  {targets : List Nat} {q : Nat}

/-- A step multiplies by the lift of what its gate resolves to. -/
theorem resolveAfter_step (hg : gate.resolve = .ok operator) (h : Placed q operator targets)
    (hb : before.dim = 2 ^ q) (rest : Circuit A) :
    resolveAfter q before (.step gate targets rest) =
      resolveAfter q ((lifted q operator targets).product before) rest := by
  rw [resolveAfter, hg]
  have hadvance : advance q before operator targets =
      .ok ((lifted q operator targets).product before) :=
    (advance_eq_mul h).trans (SquareMatrix.mul_eq_product hb)
  simp only [bind, Except.bind, hadvance]

/-- A gate that passes on its qubits in order resolves to what its only step does. -/
theorem resolve_wrapped (hq : q ≤ SquareMatrix.maxQubits) (hg : gate.resolve = .ok operator)
    (hdim : operator.dim = 2 ^ q) :
    (composite q (.step gate (List.range q) .done)).resolve = .ok operator := by
  have hplaced : Placed q operator (List.range q) :=
    ⟨by rwa [List.length_range], List.nodup_range, fun t ht => List.mem_range.mp ht⟩
  rw [resolve_composite hq, resolveAfter_step hg hplaced rfl, SquareMatrix.lifted_range hdim,
    resolveAfter]
  refine congrArg Except.ok (SquareMatrix.ext_toMatrix hdim hdim ?_)
  rw [SquareMatrix.toMatrix_product hdim]
  exact (congrArg _ (SquareMatrix.toMatrix_identity _)).trans (mul_one _)

variable {a b c d : SquareMatrix A}

/-- **A step that keeps the control** takes effect for each of its values apart. -/
theorem resolveAfter_select (hg : gate.resolve = .ok operator) (h : Placed 2 operator targets)
    (hlift : lifted 2 operator targets = a.select b) (ha : a.dim = 2) (hb : b.dim = 2)
    (rest : Circuit A) :
    resolveAfter 2 (c.select d) (.step gate targets rest) =
      resolveAfter 2 ((a.product c).select (b.product d)) rest := by
  rw [resolveAfter_step hg h rfl, hlift, SquareMatrix.product_select ha hb]

/-- A gate on the target. -/
theorem resolveAfter_target (hg : gate.resolve = .ok operator) (hdim : operator.dim = 2)
    (rest : Circuit A) :
    resolveAfter 2 (c.select d) (.step gate [1] rest) =
      resolveAfter 2 ((operator.product c).select (operator.product d)) rest := by
  have hplaced : Placed 2 operator [1] := ⟨hdim, by decide, by decide⟩
  exact resolveAfter_select hg hplaced SquareMatrix.lifted_target hdim hdim rest

end Steps

/-- The controlled flip acts as the flip where the control is set. -/
theorem resolve_controlledNot : (controlledNot : Gate (Amplitude ℝ)).resolve =
    .ok ((SquareMatrix.identity 2).select flipMatrix) := by
  rw [controlledNot, resolve]
  refine congrArg Except.ok (SquareMatrix.ext_get (d := 4) rfl rfl fun i j hi hj => ?_)
  rw [SquareMatrix.get_select hi hj, identity_eq_square2]
  interval_cases i <;> interval_cases j <;> rfl

variable {gate : Gate (Amplitude ℝ)} {c d : SquareMatrix (Amplitude ℝ)}

theorem resolveAfter_flip
    (hg : gate.resolve = .ok ((SquareMatrix.identity 2).select flipMatrix)) (hc : c.dim = 2)
    (rest : Circuit (Amplitude ℝ)) :
    resolveAfter 2 (c.select d) (.step gate [0, 1] rest) =
      resolveAfter 2 (c.select (flipMatrix.product d)) rest := by
  have hplaced : Placed 2 ((SquareMatrix.identity 2).select flipMatrix) [0, 1] :=
    ⟨rfl, by decide, by decide⟩
  have hlift : lifted 2 ((SquareMatrix.identity 2).select flipMatrix) [0, 1] =
      (SquareMatrix.identity 2).select flipMatrix := SquareMatrix.lifted_range (n := 2) rfl
  rw [resolveAfter_select hg hplaced hlift rfl rfl, SquareMatrix.identity_product hc]

/-- A rotation about the axis of the phases, on the control. -/
theorem resolveAfter_control {lambda : ℝ}
    (hg : gate.resolve = .ok (rotationMatrix 0 0 lambda)) (rest : Circuit (Amplitude ℝ)) :
    resolveAfter 2 (c.select d) (.step gate [0] rest) =
      resolveAfter 2 (((square2 (Amplitude.phased (-lambda / 2) 1) 0 0
          (Amplitude.phased (-lambda / 2) 1)).product c).select
        ((square2 (Amplitude.phased (lambda / 2) 1) 0 0
          (Amplitude.phased (lambda / 2) 1)).product d)) rest := by
  rw [rotationMatrix_zero, zero_add] at hg
  exact resolveAfter_select hg ⟨rfl, by decide, by decide⟩ (SquareMatrix.lifted_control _ _)
    rfl rfl rest

/-- Flips around a rotation, in front of another operator. -/
theorem flip_rotation_flip_product (theta phi lambda : ℝ) (c : SquareMatrix (Amplitude ℝ)) :
    flipMatrix.product ((rotationMatrix theta phi lambda).product (flipMatrix.product c)) =
      (rotationMatrix (-theta) (-phi) (-lambda)).product c := by
  rw [← flip_rotation_flip,
    SquareMatrix.product_assoc (a := flipMatrix)
      (b := (rotationMatrix theta phi lambda).product flipMatrix) rfl,
    SquareMatrix.product_assoc (a := rotationMatrix theta phi lambda) (b := flipMatrix) rfl]

/-- Phases add up in rotations about their axis. -/
theorem product_rotationMatrix_zero (lambda mu : ℝ) :
    (rotationMatrix 0 0 lambda).product (rotationMatrix 0 0 mu) =
      rotationMatrix 0 0 (lambda + mu) := by
  have hmu : rotationMatrix 0 0 mu = rotationMatrix 0 (-lambda) (lambda + mu) :=
    rotationMatrix_zero_congr (by ring)
  rw [hmu, product_rotationMatrix, add_zero]

theorem product_rotationMatrix_zero_product (lambda mu : ℝ) (c : SquareMatrix (Amplitude ℝ)) :
    (rotationMatrix 0 0 lambda).product ((rotationMatrix 0 0 mu).product c) =
      (rotationMatrix 0 0 (lambda + mu)).product c := by
  have hdim : (rotationMatrix 0 0 mu).dim = (rotationMatrix 0 0 lambda).dim := by
    rw [dim_rotationMatrix, dim_rotationMatrix]
  rw [← product_rotationMatrix_zero, SquareMatrix.product_assoc hdim]

/-! ## The three gates -/

section Library

variable {theta phi lambda : ℝ} {turn flip back last : Gate (Amplitude ℝ)}

theorem resolve_composite_two (circuit : Circuit (Amplitude ℝ)) :
    (composite 2 circuit).resolve =
      resolveAfter 2 ((SquareMatrix.identity 2).select (SquareMatrix.identity 2)) circuit := by
  rw [resolve_composite (by decide), SquareMatrix.select_identity]
  rfl

theorem resolve_crz
    (hflip : flip.resolve = .ok ((SquareMatrix.identity 2).select flipMatrix))
    (hturn : turn.resolve = .ok (rotationMatrix 0 0 (Scalar.half lambda)))
    (hback : back.resolve = .ok (rotationMatrix 0 0 (Scalar.half (-lambda)))) :
    (composite 2 (.step turn [1] (.step flip [0, 1] (.step back [1]
      (.step flip [0, 1] .done))))).resolve =
      .ok ((SquareMatrix.identity 2).select (rotationMatrix 0 0 lambda)) := by
  have hclear : (rotationMatrix 0 0 (-lambda / 2)).product (rotationMatrix 0 0 (lambda / 2)) =
      SquareMatrix.identity 2 := by
    rw [product_rotationMatrix_zero, ← rotationMatrix_zero_neg 0]
    congr 1
    ring
  have hset : flipMatrix.product ((rotationMatrix 0 0 (-lambda / 2)).product
      (flipMatrix.product (rotationMatrix 0 0 (lambda / 2)))) = rotationMatrix 0 0 lambda := by
    rw [flip_rotation_flip_product, neg_zero, product_rotationMatrix_zero]
    congr 1
    ring
  rw [half_eq] at hturn hback
  rw [resolve_composite_two, resolveAfter_target hturn rfl, resolveAfter_flip hflip rfl,
    resolveAfter_target hback rfl, resolveAfter_flip hflip rfl, resolveAfter,
    SquareMatrix.product_identity rfl, hclear, hset]

theorem resolve_cu1
    (hflip : flip.resolve = .ok ((SquareMatrix.identity 2).select flipMatrix))
    (hturn : turn.resolve = .ok (rotationMatrix 0 0 (Scalar.half lambda)))
    (hback : back.resolve = .ok (rotationMatrix 0 0 (Scalar.half (-lambda)))) :
    (composite 2 (.step turn [0] (.step flip [0, 1] (.step back [1] (.step flip [0, 1]
      (.step turn [1] .done)))))).resolve =
      .ok (.ofFn 4 fun i j => if i = j
        then Amplitude.unit (-lambda / 4) * (if i = 3 then Amplitude.unit lambda else 1)
        else 0) := by
  have hclear : (rotationMatrix 0 0 (lambda / 2)).product
      ((rotationMatrix 0 0 (-lambda / 2)).product
        (square2 (Amplitude.phased (-(lambda / 2) / 2) 1) 0 0
          (Amplitude.phased (-(lambda / 2) / 2) 1))) =
      square2 (Amplitude.unit (-lambda / 4)) 0 0 (Amplitude.unit (-lambda / 4)) := by
    have hphases : rotationMatrix 0 0 (lambda / 2 + -lambda / 2) = SquareMatrix.identity 2 := by
      rw [← rotationMatrix_zero_neg 0]
      congr 1
      ring
    have hangle : -(lambda / 2) / 2 = -lambda / 4 := by ring
    rw [product_rotationMatrix_zero_product, hphases, SquareMatrix.identity_product rfl, hangle,
      Amplitude.unit_eq_phased]
  have hset : (rotationMatrix 0 0 (lambda / 2)).product
      (flipMatrix.product ((rotationMatrix 0 0 (-lambda / 2)).product
        (flipMatrix.product (square2 (Amplitude.phased (lambda / 2 / 2) 1) 0 0
          (Amplitude.phased (lambda / 2 / 2) 1))))) =
      square2 (Amplitude.unit (-lambda / 4)) 0 0
        (Amplitude.unit (-lambda / 4) * Amplitude.unit lambda) := by
    rw [flip_rotation_flip_product, neg_zero, product_rotationMatrix_zero_product,
      rotationMatrix_zero, product_square2]
    simp only [Amplitude.unit_eq_phased, Amplitude.phased_mul_phased, mul_zero, zero_mul, add_zero,
      zero_add, mul_one]
    refine square2_congr ?_ rfl rfl ?_
    · congr 1
      ring
    · congr 1
      ring
  rw [half_eq] at hturn hback
  rw [resolve_composite_two, resolveAfter_control hturn, resolveAfter_flip hflip rfl,
    resolveAfter_target hback rfl, resolveAfter_flip hflip rfl, resolveAfter_target hturn rfl,
    resolveAfter, SquareMatrix.product_identity rfl, SquareMatrix.product_identity rfl, hclear,
    hset, SquareMatrix.select_phase]

theorem resolve_cu3
    (hflip : flip.resolve = .ok ((SquareMatrix.identity 2).select flipMatrix))
    (hturn : turn.resolve = .ok (rotationMatrix 0 0 (Scalar.half (lambda - phi))))
    (hback : back.resolve =
      .ok (rotationMatrix (Scalar.half (-theta)) 0 (Scalar.half (-(phi + lambda)))))
    (hlast : last.resolve = .ok (rotationMatrix (Scalar.half theta) phi 0)) :
    (composite 2 (.step turn [1] (.step flip [0, 1] (.step back [1] (.step flip [0, 1]
      (.step last [1] .done)))))).resolve =
      .ok ((SquareMatrix.identity 2).select (rotationMatrix theta phi lambda)) := by
  -- the turn, written with the phase that cancels against the step behind it
  have hclear : (rotationMatrix (theta / 2) phi 0).product
      ((rotationMatrix (-theta / 2) 0 (-(phi + lambda) / 2)).product
        (rotationMatrix 0 0 ((lambda - phi) / 2))) = SquareMatrix.identity 2 := by
    have hphase : rotationMatrix 0 0 ((lambda - phi) / 2) =
        rotationMatrix 0 (-(-(phi + lambda) / 2)) (-phi) := rotationMatrix_zero_congr (by ring)
    have hzero : rotationMatrix (-theta / 2 + 0) 0 (-phi) =
        rotationMatrix (-theta / 2) (-0) (-phi) := by rw [add_zero, neg_zero]
    rw [hphase, product_rotationMatrix, hzero, product_rotationMatrix, neg_div, add_neg_cancel,
      rotationMatrix_zero_neg]
  have hset : (rotationMatrix (theta / 2) phi 0).product
      (flipMatrix.product ((rotationMatrix (-theta / 2) 0 (-(phi + lambda) / 2)).product
        (flipMatrix.product (rotationMatrix 0 0 ((lambda - phi) / 2))))) =
      rotationMatrix theta phi lambda := by
    have hphase : rotationMatrix 0 0 ((lambda - phi) / 2) =
        rotationMatrix 0 (-(-(-(phi + lambda) / 2))) lambda := rotationMatrix_zero_congr (by ring)
    rw [flip_rotation_flip_product, hphase, product_rotationMatrix, product_rotationMatrix]
    congr 1
    ring
  rw [half_eq] at hturn hlast
  rw [half_eq, half_eq] at hback
  rw [resolve_composite_two, resolveAfter_target hturn rfl, resolveAfter_flip hflip rfl,
    resolveAfter_target hback rfl, resolveAfter_flip hflip rfl, resolveAfter_target hlast rfl,
    resolveAfter, SquareMatrix.product_identity rfl, hclear, hset]

end Library

end Gate

/-! ## The gates of the library -/

namespace GateTable

/-- A declared gate is instantiated for these parameters, and resolves to this operator. -/
def AmountsTo (table : GateTable) (active : List String) (name : String) (parameters : List ℝ)
    (operator : SquareMatrix (Amplitude ℝ)) : Prop :=
  ∃ gate, table.instantiateWithin active (.named name) parameters = .ok gate ∧
    gate.resolve = .ok operator

theorem ofNat_zero : (Scalar.ofNat 0 : ℝ) = 0 := Nat.cast_zero

open StandardGates

section Declared

variable {table : GateTable} (h : ∀ g ∈ rotationGates, table.Declares g.1 g.2)
  (active : List String)

include h

theorem amountsTo_u3 (hnew : "u3" ∉ active) (theta phi lambda : ℝ) :
    table.AmountsTo active "u3" [theta, phi, lambda] (Gate.rotationMatrix theta phi lambda) := by
  have hdeclared : table.Declares u3 u3Body := h (u3, u3Body) (by decide)
  refine ⟨_, hdeclared.instantiateWithin hnew [theta, phi, lambda] rfl
    (instantiateBody_call_eq_ok.mpr ⟨[theta, phi, lambda], [0], .rotation theta phi lambda, .done,
      rfl, rfl, ?_, rfl, rfl⟩), ?_⟩
  · exact instantiateWithin_rotation_eq_ok.mpr ⟨_, _, _, rfl, rfl⟩
  · exact Gate.resolve_wrapped (q := 1) (by decide) (by rw [Gate.rotation, Gate.resolve]) rfl

theorem amountsTo_u1 (hnew : "u1" ∉ active) (lambda : ℝ) :
    table.AmountsTo active "u1" [lambda] (Gate.rotationMatrix 0 0 lambda) := by
  have hdeclared : table.Declares u1 u1Body := h (u1, u1Body) (by decide)
  refine ⟨_, hdeclared.instantiateWithin hnew [lambda] rfl (instantiateBody_call_eq_ok.mpr
    ⟨[Scalar.ofNat 0, Scalar.ofNat 0, lambda], [0], .rotation 0 0 lambda, .done, rfl, rfl, ?_, rfl,
      rfl⟩), ?_⟩
  · rw [ofNat_zero]
    exact instantiateWithin_rotation_eq_ok.mpr ⟨_, _, _, rfl, rfl⟩
  · exact Gate.resolve_wrapped (q := 1) (by decide) (by rw [Gate.rotation, Gate.resolve]) rfl

theorem amountsTo_cx (hnew : "cx" ∉ active) :
    table.AmountsTo active "cx" [] ((SquareMatrix.identity 2).select Gate.flipMatrix) := by
  have hdeclared : table.Declares cx cxBody := h (cx, cxBody) (by decide)
  refine ⟨_, hdeclared.instantiateWithin hnew ([] : List ℝ) rfl (instantiateBody_call_eq_ok.mpr
    ⟨[], [0, 1], .controlledNot, .done, rfl, rfl, instantiateWithin_controlledNot .., rfl,
      rfl⟩), ?_⟩
  exact Gate.resolve_wrapped (q := 2) (by decide) Gate.resolve_controlledNot rfl

theorem amountsTo_crz (lambda : ℝ) :
    table.AmountsTo [] "crz" [lambda]
      ((SquareMatrix.identity 2).select (Gate.rotationMatrix 0 0 lambda)) := by
  have hdeclared : table.Declares crz crzBody := h (crz, crzBody) (by decide)
  obtain ⟨flip, hflip, hflipped⟩ := amountsTo_cx h ["crz"] (by decide)
  obtain ⟨turn, hturn, hturned⟩ :=
    amountsTo_u1 h ["crz"] (by decide) (Scalar.half lambda)
  obtain ⟨back, hback, hturnedBack⟩ :=
    amountsTo_u1 h ["crz"] (by decide) (Scalar.half (-lambda))
  refine ⟨_, hdeclared.instantiateWithin List.not_mem_nil [lambda] rfl ?_,
    Gate.resolve_crz hflipped hturned hturnedBack⟩
  refine instantiateBody_call_eq_ok.mpr ⟨_, [1], turn, _, rfl, rfl, hturn, ?_, rfl⟩
  refine instantiateBody_call_eq_ok.mpr ⟨_, [0, 1], flip, _, rfl, rfl, hflip, ?_, rfl⟩
  refine instantiateBody_call_eq_ok.mpr ⟨_, [1], back, _, rfl, rfl, hback, ?_, rfl⟩
  exact instantiateBody_call_eq_ok.mpr ⟨_, [0, 1], flip, _, rfl, rfl, hflip, rfl, rfl⟩

theorem amountsTo_cu1 (lambda : ℝ) :
    table.AmountsTo [] "cu1" [lambda] (.ofFn 4 fun i j => if i = j
      then Amplitude.unit (-lambda / 4) * (if i = 3 then Amplitude.unit lambda else 1) else 0) := by
  have hdeclared : table.Declares cu1 cu1Body := h (cu1, cu1Body) (by decide)
  obtain ⟨flip, hflip, hflipped⟩ := amountsTo_cx h ["cu1"] (by decide)
  obtain ⟨turn, hturn, hturned⟩ :=
    amountsTo_u1 h ["cu1"] (by decide) (Scalar.half lambda)
  obtain ⟨back, hback, hturnedBack⟩ :=
    amountsTo_u1 h ["cu1"] (by decide) (Scalar.half (-lambda))
  refine ⟨_, hdeclared.instantiateWithin List.not_mem_nil [lambda] rfl ?_,
    Gate.resolve_cu1 hflipped hturned hturnedBack⟩
  refine instantiateBody_call_eq_ok.mpr ⟨_, [0], turn, _, rfl, rfl, hturn, ?_, rfl⟩
  refine instantiateBody_call_eq_ok.mpr ⟨_, [0, 1], flip, _, rfl, rfl, hflip, ?_, rfl⟩
  refine instantiateBody_call_eq_ok.mpr ⟨_, [1], back, _, rfl, rfl, hback, ?_, rfl⟩
  refine instantiateBody_call_eq_ok.mpr ⟨_, [0, 1], flip, _, rfl, rfl, hflip, ?_, rfl⟩
  exact instantiateBody_call_eq_ok.mpr ⟨_, [1], turn, _, rfl, rfl, hturn, rfl, rfl⟩

theorem amountsTo_cu3 (theta phi lambda : ℝ) :
    table.AmountsTo [] "cu3" [theta, phi, lambda]
      ((SquareMatrix.identity 2).select (Gate.rotationMatrix theta phi lambda)) := by
  have hdeclared : table.Declares cu3 cu3Body := h (cu3, cu3Body) (by decide)
  obtain ⟨flip, hflip, hflipped⟩ := amountsTo_cx h ["cu3"] (by decide)
  obtain ⟨turn, hturn, hturned⟩ :=
    amountsTo_u1 h ["cu3"] (by decide) (Scalar.half (lambda - phi))
  obtain ⟨back, hback, hturnedBack⟩ := amountsTo_u3 h ["cu3"] (by decide)
    (Scalar.half (-theta)) (Scalar.ofNat 0) (Scalar.half (-(phi + lambda)))
  obtain ⟨last, hlast, hturnedOn⟩ := amountsTo_u3 h ["cu3"] (by decide)
    (Scalar.half theta) phi (Scalar.ofNat 0)
  rw [ofNat_zero] at hturnedBack hturnedOn
  refine ⟨_, hdeclared.instantiateWithin List.not_mem_nil [theta, phi, lambda] rfl ?_,
    Gate.resolve_cu3 hflipped hturned hturnedBack hturnedOn⟩
  refine instantiateBody_call_eq_ok.mpr ⟨_, [1], turn, _, rfl, rfl, hturn, ?_, rfl⟩
  refine instantiateBody_call_eq_ok.mpr ⟨_, [0, 1], flip, _, rfl, rfl, hflip, ?_, rfl⟩
  refine instantiateBody_call_eq_ok.mpr ⟨_, [1], back, _, rfl, rfl, hback, ?_, rfl⟩
  refine instantiateBody_call_eq_ok.mpr ⟨_, [0, 1], flip, _, rfl, rfl, hflip, ?_, rfl⟩
  exact instantiateBody_call_eq_ok.mpr ⟨_, [1], last, _, rfl, rfl, hlast, rfl, rfl⟩

end Declared

end GateTable

open SquareMatrix in
/-- **The controlled rotations of the library are what they are named for**, for all angles. Once an
executor has executed the library, `cu3` and `crz` do nothing where the control is clear and rotate
the target where it is set; `cu1` puts a phase on everything and another one where both bits are
set. -/
theorem controlled_rotations : ∃ library, StandardGates.program = .ok library ∧
    ∀ x : Executor ℝ, ∃ gates : GateTable,
      x.run library.statements = ⟨{ x with gates }, none⟩ ∧ ∀ theta phi lambda : ℝ,
        (∃ cu3, gates.instantiate (.named "cu3") [theta, phi, lambda] = .ok cu3 ∧
          cu3.resolve = .ok ((identity 2).select (Gate.rotationMatrix theta phi lambda))) ∧
        (∃ crz, gates.instantiate (.named "crz") [lambda] = .ok crz ∧
          crz.resolve = .ok ((identity 2).select (Gate.rotationMatrix 0 0 lambda))) ∧
        ∃ cu1, gates.instantiate (.named "cu1") [lambda] = .ok cu1 ∧
          cu1.resolve = .ok (.ofFn 4 fun i j => if i = j
            then Amplitude.unit (-lambda / 4) * (if i = 3 then Amplitude.unit lambda else 1)
            else 0) := by
  obtain ⟨library, hprogram, hrun⟩ := StandardGates.exists_run
  refine ⟨library, hprogram, fun x => ?_⟩
  obtain ⟨gates, hgates, hdeclared⟩ := hrun x
  exact ⟨gates, hgates, fun theta phi lambda =>
    ⟨GateTable.amountsTo_cu3 hdeclared theta phi lambda, GateTable.amountsTo_crz hdeclared lambda,
      GateTable.amountsTo_cu1 hdeclared lambda⟩⟩

end OpenQasm
