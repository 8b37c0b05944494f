import OpenQasm.Proofs.Circuits
import OpenQasm.Proofs.Instantiation
import OpenQasm.Proofs.Words
import OpenQasm.Quantum.Guarded

/-!
# Gates that there is room for

`Gate.resolve` counts with numbers of any size and refuses a circuit on more than
`SquareMatrix.maxQubits` qubits. `Guarded.resolve` counts with words of 64 bits and stops where one
overflows or where a matrix would have more entries than there are bytes for. The two are the same:
a guard stops the one where the other refuses, and nowhere else.

* `room_two_pow_iff`: how many qubits there is room for.
* `StandsFor`: guarded steps against steps that refuse.
* `redimension_eq`: the lift of a step, which no guard stops.
* **`resolve_standsFor`**: whole gates, by induction on them.
* `resolve_standsFor_of_instantiate`: the gates of a run, which there is room for.
-/

namespace OpenQasm

open BitIndex

/-! ## Operators that there is room for -/

section Held

variable {A : Type}

/-- There is room for the operators inside a gate. -/
def Gate.Held (gate : Gate A) : Prop :=
  gate.Every fun matrix => matrix.dim * matrix.dim ≤ Guarded.maxEntries

/-- There is room for the operators inside the steps of a circuit. -/
def Circuit.Held (circuit : Circuit A) : Prop :=
  circuit.Every fun matrix => matrix.dim * matrix.dim ≤ Guarded.maxEntries

end Held

namespace Guarded

variable {ε α β : Type}

/-! ## Room -/

theorem room_eq {dim : Nat} (h : dim * dim ≤ maxEntries) :
    (room dim : Guarded ε Unit) = .ok () := by
  have hword : dim * dim < 2 ^ 64 := Nat.lt_of_le_of_lt h (by decide)
  rw [room, bind_of_eq_ok (mul_eq hword), require_eq h]

theorem exists_hazard_of_room {dim : Nat} (h : maxEntries < dim * dim) :
    ∃ hazard, (room dim : Guarded ε Unit) = .error (.hazard hazard) := by
  unfold room mul word require
  by_cases hword : dim * dim < UInt64.size
  · rw [if_pos hword]
    exact ⟨_, if_neg (Nat.not_le.mpr h)⟩
  · rw [if_neg hword]
    exact ⟨_, rfl⟩

/-- **How many qubits there is room for.** -/
theorem room_two_pow_iff {q : Nat} : 2 ^ q * 2 ^ q ≤ maxEntries ↔ q ≤ SquareMatrix.maxQubits := by
  constructor
  · intro h
    by_contra hwide
    have hpow : 2 ^ 30 ≤ 2 ^ q := Nat.pow_le_pow_right Nat.zero_lt_two (Nat.not_le.mp hwide)
    exact absurd ((Nat.mul_le_mul hpow hpow).trans h) (by decide)
  · intro h
    have hpow : 2 ^ q ≤ 2 ^ 29 := Nat.pow_le_pow_right Nat.zero_lt_two h
    exact (Nat.mul_le_mul hpow hpow).trans (by decide)

theorem room_of_le {q dim : Nat} (hq : q ≤ SquareMatrix.maxQubits) (h : dim ≤ 2 ^ q) :
    (room dim : Guarded ε Unit) = .ok () :=
  room_eq ((Nat.mul_le_mul h h).trans (room_two_pow_iff.mpr hq))

/-! ## Guarded steps and steps that refuse -/

/-- Guarded steps end as steps without guards do, and at a guard where these find no room. -/
structure StandsFor (x : Guarded AlgebraError α) (y : Except AlgebraError α) : Prop where
  eq : (∀ q, y ≠ .error (.unaddressable q)) → x = ofExcept y
  stopped : ∀ q, y = .error (.unaddressable q) → ∃ hazard, x = .error (.hazard hazard)

variable {x : Guarded AlgebraError α} {y : Except AlgebraError α}

/-- Steps that never lack room stand for themselves. -/
theorem standsFor_of_eq (h : x = ofExcept y) (hroom : ∀ q, y ≠ .error (.unaddressable q)) :
    StandsFor x y :=
  ⟨fun _ => h, fun q hq => absurd hq (hroom q)⟩

theorem StandsFor.bind {f : α → Guarded AlgebraError β} {g : α → Except AlgebraError β}
    (h : StandsFor x y) (hnext : ∀ a, y = .ok a → StandsFor (f a) (g a)) :
    StandsFor (x >>= f) (y >>= g) := by
  cases hy : y with
  | ok a =>
    have hx : x = .ok a := by rw [h.eq fun q => by rw [hy]; nofun, hy]; rfl
    rw [hx]
    exact hnext a hy
  | error e =>
    refine ⟨fun hroom => ?_, fun q hq => ?_⟩
    · have hx : x = .error (.fault e) := by
        rw [h.eq fun q hq => hroom q (by rw [hy] at hq; rw [Except.error.inj hq]; rfl), hy]; rfl
      rw [hx]
      rfl
    · obtain ⟨hazard, hx⟩ := h.stopped q (by rw [hy, Except.error.inj hq])
      rw [hx]
      exact ⟨hazard, rfl⟩

/-! ## Matrices -/

section Matrices

variable [Zero α] [One α]

/-- The identity on as many qubits as there is room for. -/
theorem identityOn_standsFor (q : Nat) :
    StandsFor (identityOn q) (SquareMatrix.identityOn q : Except _ (SquareMatrix α)) := by
  unfold SquareMatrix.identityOn identityOn
  by_cases hwide : SquareMatrix.maxQubits < q
  · rw [if_pos hwide]
    refine ⟨fun hroom => absurd rfl (hroom q), fun _ _ => ?_⟩
    by_cases hq : q < 64
    · obtain ⟨hazard, hstop⟩ := exists_hazard_of_room (ε := AlgebraError)
        (Nat.not_le.mp (room_two_pow_iff.not.mpr (Nat.not_le.mpr hwide)))
      rw [bind_of_eq_ok (shiftLeft_one hq), hstop]
      exact ⟨hazard, rfl⟩
    · refine ⟨.shift q, ?_⟩
      unfold shiftLeft require
      rw [if_neg hq]
      rfl
  · rw [if_neg hwide]
    have hq : q ≤ SquareMatrix.maxQubits := Nat.not_lt.mp hwide
    refine standsFor_of_eq ?_ nofun
    rw [bind_of_eq_ok (shiftLeft_one (Nat.lt_of_le_of_lt hq (by decide))),
      bind_of_eq_ok (room_of_le hq le_rfl)]
    rfl

variable [Mul α] [BEq α] {m : SquareMatrix α} {positions : List Nat}

/-- **The lift of an operator** is counted with words when the positions are fewer than the bits of
a word, and no more than there is room for if they are a permutation. -/
theorem redimension_eq (hlength : positions.length < 64)
    (hroom : SquareMatrix.isPermutation positions = true →
      positions.length ≤ SquareMatrix.maxQubits) :
    redimension m positions = ofExcept (m.redimension positions) := by
  rw [redimension, bind_of_eq_ok (shiftLeft_one hlength)]
  cases hlift : m.redimension positions with
  | error e => rfl
  | ok lifted =>
    obtain ⟨hperm, -⟩ := of_redimension_ok hlift
    have hq := hroom hperm
    have hinWord : InWord positions := by
      refine ⟨hlength, fun p hp => ?_⟩
      have hlt := List.mem_range.mp ((perm_of_isPermutation hperm).mem_iff.mp hp)
      exact hlt.trans hlength
    have hpadded : 2 ^ positions.length / m.dim * m.dim ≤ 2 ^ positions.length :=
      Nat.div_mul_le_self _ _
    have hword : 2 ^ positions.length / m.dim * m.dim < 2 ^ 64 :=
      Nat.lt_of_le_of_lt hpadded (Nat.pow_lt_pow_right Nat.one_lt_two hlength)
    show ((room _ : Guarded AlgebraError Unit) >>= _) = _
    rw [bind_of_eq_ok (room_of_le hq (Nat.div_le_self _ _)), bind_of_eq_ok (mul_eq hword),
      bind_of_eq_ok (room_of_le hq hpadded), bind_of_eq_ok (room_of_le hq le_rfl),
      bind_of_eq_ok (mapM_eq fun i _ => permuteBits_eq hinWord i)]
    rfl

end Matrices

/-! ## Whole gates -/

theorem placement_ne_unaddressable {A : Type} (n : Nat) (targets : List Nat)
    (operator : SquareMatrix A) (q : Nat) :
    placement n targets operator ≠ .error (.unaddressable q) := by
  unfold placement
  split
  · nofun
  · split
    · nofun
    · split <;> nofun

section Gates

variable [Zero α] [One α] [Add α] [Mul α] [BEq α]

omit [Add α] in
theorem redimension_ne_unaddressable (operator : SquareMatrix α) (positions : List Nat) (q : Nat) :
    operator.redimension positions ≠ .error (.unaddressable q) := by
  unfold SquareMatrix.redimension
  simp only
  split
  · nofun
  · split <;> nofun

/-- There is room for what a gate resolves to. -/
theorem room_of_resolve {gate : Gate α} (hheld : gate.Held) {operator : SquareMatrix α}
    (h : gate.resolve = .ok operator) : operator.dim * operator.dim ≤ maxEntries := by
  cases gate with
  | operator matrix =>
    rw [Gate.Held, Gate.Every] at hheld
    rw [Gate.resolve] at h
    obtain rfl := Except.ok.inj h
    exact hheld
  | composite qubits circuit =>
    have hdim : operator.dim = 2 ^ qubits := Gate.dim_of_resolve h
    rw [hdim]
    exact room_two_pow_iff.mpr (Gate.resolve_composite_eq_ok.mp h).1

omit [Add α] in
/-- A placement in a circuit that there is room for is lifted with words, also where the lift is
refused for it. -/
theorem redimension_standsFor {n : Nat} (hn : n ≤ SquareMatrix.maxQubits)
    {operator : SquareMatrix α} (hroom : operator.dim * operator.dim ≤ maxEntries)
    {targets positions : List Nat}
    (hp : placement n targets operator = .ok positions) :
    StandsFor (redimension operator positions) (operator.redimension positions) := by
  obtain ⟨hdim, hlt, rfl⟩ := of_placement_ok hp
  rw [hdim] at hroom
  have htargets : targets.length ≤ SquareMatrix.maxQubits := room_two_pow_iff.mp hroom
  have hothers : (others n targets).length ≤ n :=
    (List.length_filter_le _ _).trans_eq List.length_range
  refine standsFor_of_eq (redimension_eq ?_ fun hperm => ?_) (redimension_ne_unaddressable _ _)
  · have hbound : SquareMatrix.maxQubits = 29 := rfl
    rw [List.length_append]
    omega
  · rwa [length_append_others (nodup_of_isPermutation hperm) hlt]

mutual

/-- **Gates are resolved with words** as they are with numbers of any size, and stopped at a guard
where these refuse a circuit that is too wide. -/
theorem resolve_standsFor : ∀ gate : Gate α, gate.Held → StandsFor (resolve gate) gate.resolve
  | .operator matrix, _ => by
    rw [resolve, Gate.resolve]
    exact standsFor_of_eq rfl nofun
  | .composite qubits circuit, hheld => by
    rw [Gate.Held, Gate.Every] at hheld
    rw [resolve, Gate.resolve]
    refine (identityOn_standsFor qubits).bind fun start hstart => ?_
    exact resolveAfter_standsFor circuit start hheld (identityOn_eq_ok.mp hstart).1

theorem resolveAfter_standsFor : ∀ (circuit : Circuit α) {n : Nat} (before : SquareMatrix α),
    circuit.Held → n ≤ SquareMatrix.maxQubits →
    StandsFor (resolveAfter n before circuit) (Gate.resolveAfter n before circuit)
  | .done, n, before, _, _ => by
    rw [resolveAfter, Gate.resolveAfter]
    exact standsFor_of_eq rfl nofun
  | .step gate targets rest, n, before, hheld, hn => by
    rw [Circuit.Held, Circuit.Every] at hheld
    rw [resolveAfter, Gate.resolveAfter]
    refine (resolve_standsFor gate hheld.1).bind fun operator hoperator => ?_
    simp only [Gate.advance, bind_assoc]
    refine (standsFor_of_eq rfl (placement_ne_unaddressable n targets operator)).bind
      fun positions hpositions => ?_
    refine (redimension_standsFor hn (room_of_resolve hheld.1 hoperator) hpositions).bind
      fun lifted _ => ?_
    refine (standsFor_of_eq rfl fun q hq => ?_).bind fun after _ =>
      resolveAfter_standsFor rest after hheld.2 hn
    unfold SquareMatrix.mul at hq
    split at hq <;> cases hq

end

end Gates

/-- **Instantiated gates** are made of operators on one and two qubits. So each is resolved with
words as it is with numbers of any size, in whatever run it is instantiated. -/
theorem resolve_standsFor_of_instantiate {R : Type} [Scalar R] {table : GateTable}
    {name : GateName} {parameters : List R} {gate : Gate (Amplitude R)}
    (h : table.instantiate name parameters = .ok gate) :
    StandsFor (resolve gate) gate.resolve := by
  have hrotation : ∀ theta phi lambda : R, (Gate.rotation theta phi lambda).Held := by
    intro theta phi lambda
    show 2 * 2 ≤ maxEntries
    decide
  have hcontrolledNot : (Gate.controlledNot : Gate (Amplitude R)).Held := by
    show 4 * 4 ≤ maxEntries
    decide
  exact resolve_standsFor gate
    (GateTable.every_of_instantiateWithin hrotation hcontrolledNot h)

end Guarded

end OpenQasm
