import OpenQasm.Proofs.Placement

/-!
# Which composites resolve

A step of a circuit stands on qubits of its circuit. Whether it may stand there is known from the
qubits of the circuit, the dimension of the step's gate and the targets (`Standing`), not from any
entry of an operator. Unless a circuit inside it is too wide for an address space, a composite
resolves exactly when every step inside it stands well; no padding and no step around it can make up
for one that does not.

* `Gate.standings`: the steps inside a gate in the order in which they are resolved, those inside a
  step's gate before the step.
* `Gate.ends_advance_standing`: one step, and what it is refused for.
* `Gate.ends_standings`, `Circuit.ends_standings`: a whole gate, by induction on it. The first step
  that does not stand well is blamed, unless a circuit that is too wide comes before it.
* **`Gate.resolve_composite_iff`**: the result for a composite.
* `Gate.resolve_tooWide`: a circuit that is too wide, in a step that does not stand well.
-/

namespace OpenQasm

open BitIndex

variable {A : Type}

/-! ## Where a step stands -/

/-- Where a step of a circuit stands: the qubits of the circuit, the dimension of the step's gate
and the qubits it is placed on. -/
structure Standing where
  qubits : Nat
  dim : Nat
  targets : List Nat
deriving DecidableEq, Repr

namespace Standing

/-- The gate acts on as many qubits as it is placed on, which differ and exist. -/
structure Sound (s : Standing) : Prop where
  dim_eq : s.dim = 2 ^ s.targets.length
  nodup : s.targets.Nodup
  lt : ∀ t ∈ s.targets, t < s.qubits

/-- What is wrong with a placement, where it is not the number of targets. -/
inductive Misplaced (s : Standing) : PlacementFault → Prop
  | dimension (hdim : ∀ w, s.dim ≠ 2 ^ w) : Misplaced s (.notPowerOfTwo s.dim)
  | outside {before after : List Nat} {target : Nat} (hdim : s.dim = 2 ^ s.targets.length)
      (htargets : s.targets = before ++ target :: after) (hbefore : ∀ t ∈ before, t < s.qubits)
      (htarget : s.qubits ≤ target) : Misplaced s (.targetOutside target s.qubits)
  | repeated (hdim : s.dim = 2 ^ s.targets.length) (hlt : ∀ t ∈ s.targets, t < s.qubits)
      (hrepeated : ¬s.targets.Nodup) :
      Misplaced s (.notPermutation (s.targets ++ others s.qubits s.targets)
        (s.targets ++ others s.qubits s.targets).length)

/-- The error that a step is refused with: a wrong number of targets for a gate that acts on qubits,
and a wrong placement in every other case. -/
structure Refused (s : Standing) (e : AlgebraError) : Prop where
  unsound : ¬s.Sound
  arity : ∀ w, s.dim = 2 ^ w → s.targets.length ≠ w → e = .dimensionMismatch w s.targets.length
  placement : (∀ w, s.dim = 2 ^ w → s.targets.length = w) →
    ∃ fault, e = .invalidPermutation fault ∧ s.Misplaced fault

variable {s : Standing}

/-- A dimension is that of one number of qubits. -/
theorem width_unique {w w' : Nat} (h : s.dim = 2 ^ w) (h' : s.dim = 2 ^ w') : w = w' :=
  (Nat.pow_right_inj (by decide)).mp (h.symm.trans h')

theorem refused_of_arity {w : Nat} (hdim : s.dim = 2 ^ w) (hlength : s.targets.length ≠ w) :
    s.Refused (.dimensionMismatch w s.targets.length) where
  unsound h := hlength (width_unique h.dim_eq hdim)
  arity w' hdim' _ := by rw [width_unique hdim hdim']
  placement h := absurd (h w hdim) hlength

theorem refused_of_misplaced {fault : PlacementFault} (h : s.Misplaced fault) :
    s.Refused (.invalidPermutation fault) where
  unsound hs := by
    cases h with
    | dimension hdim => exact hdim _ hs.dim_eq
    | outside _ htargets _ htarget =>
      have hlt := hs.lt _ (htargets ▸ List.mem_append_right _ List.mem_cons_self)
      omega
    | repeated _ _ hrepeated => exact hrepeated hs.nodup
  arity w hdim hlength := by
    cases h with
    | dimension hnone => exact absurd hdim (hnone w)
    | outside hown _ _ _ => exact absurd (width_unique hown hdim) hlength
    | repeated hown _ _ => exact absurd (width_unique hown hdim) hlength
  placement _ := ⟨fault, rfl, h⟩

/-- The first of some steps that does not stand well is refused with this error. -/
def FirstRefused (steps : List Standing) (e : AlgebraError) : Prop :=
  ∃ before s after, steps = before ++ s :: after ∧ (∀ b ∈ before, b.Sound) ∧ s.Refused e

variable {e : AlgebraError} {steps : List Standing}

theorem firstRefused_cons (h : s.Refused e) (more : List Standing) : FirstRefused (s :: more) e :=
  ⟨[], s, more, rfl, fun _ hb => absurd hb List.not_mem_nil, h⟩

theorem FirstRefused.append_right (h : FirstRefused steps e) (more : List Standing) :
    FirstRefused (steps ++ more) e := by
  obtain ⟨before, s, after, rfl, hbefore, hs⟩ := h
  exact ⟨before, s, after ++ more, by rw [List.append_assoc]; rfl, hbefore, hs⟩

theorem FirstRefused.append_left {more : List Standing} (hsteps : ∀ b ∈ steps, b.Sound)
    (h : FirstRefused more e) : FirstRefused (steps ++ more) e := by
  obtain ⟨before, s, after, rfl, hbefore, hs⟩ := h
  refine ⟨steps ++ before, s, after, (List.append_assoc ..).symm, fun b hb => ?_, hs⟩
  exact (List.mem_append.mp hb).elim (hsteps b) (hbefore b)

theorem FirstRefused.exists_unsound (h : FirstRefused steps e) : ∃ s ∈ steps, ¬s.Sound := by
  obtain ⟨before, s, after, rfl, -, hs⟩ := h
  exact ⟨s, List.mem_append_right _ List.mem_cons_self, hs.unsound⟩

end Standing

/-! ## One step -/

section Step

variable [Zero A] [One A] [Add A] [Mul A] [BEq A] {q : Nat} {before operator : SquareMatrix A}
  {targets : List Nat}

omit [Zero A] [One A] [Add A] [Mul A] [BEq A] in
/-- A placement that is refused: the number of targets is wrong, or the placement. -/
theorem refused_of_placement_error {e : AlgebraError}
    (h : placement q targets operator = .error e) :
    Standing.Refused ⟨q, operator.dim, targets⟩ e := by
  unfold placement at h
  cases hq : operator.qubits? with
  | none =>
    simp only [hq] at h
    obtain rfl := Except.error.inj h
    refine Standing.refused_of_misplaced (.dimension fun w hdim => ?_)
    have hsome : operator.qubits? = some w := exactLog2?_eq_some_iff.mpr hdim
    rw [hq] at hsome
    cases hsome
  | some width =>
    have hdim : operator.dim = 2 ^ width := exactLog2?_eq_some_iff.mp hq
    simp only [hq] at h
    by_cases hlength : targets.length = width
    · subst hlength
      simp only [ne_eq, not_true_eq_false, if_false] at h
      cases hfind : targets.find? (q ≤ ·) with
      | none =>
        rw [hfind] at h
        cases h
      | some target =>
        rw [hfind] at h
        obtain rfl := Except.error.inj h
        obtain ⟨htarget, earlier, later, rfl, hearlier⟩ := List.find?_eq_some_iff_append.mp hfind
        refine Standing.refused_of_misplaced
          (.outside hdim rfl (fun t ht => ?_) (of_decide_eq_true htarget))
        simpa using hearlier t ht
    · rw [if_pos hlength] at h
      obtain rfl := Except.error.inj h
      exact Standing.refused_of_arity hdim hlength

omit [Add A] in
/-- A step whose targets are as many as they should be and exist cannot be lifted when a target
is repeated. The operator is never too large for the space: a repeated target makes the placement
longer than the circuit is wide. -/
theorem refused_of_redimension_error {positions : List Nat} {e : AlgebraError}
    (hp : placement q targets operator = .ok positions)
    (h : operator.redimension positions = .error e) :
    Standing.Refused ⟨q, operator.dim, targets⟩ e := by
  obtain ⟨hdim, hlt, rfl⟩ := of_placement_ok hp
  have hrepeated : ¬targets.Nodup := fun hd => by
    have hplaced : Placed q operator targets := ⟨hdim, hd, hlt⟩
    obtain ⟨lift, hlift, -⟩ := exists_redimension hplaced
    rw [hlift] at h
    cases h
  have hsmall : ¬(operator.qubits?.isNone = true ∨
      Nat.pow 2 (targets ++ others q targets).length < operator.dim) := by
    have hq : operator.qubits? = some targets.length := exactLog2?_eq_some_iff.mpr hdim
    rw [hq, hdim, not_or, List.length_append]
    exact ⟨Bool.false_ne_true,
      Nat.not_lt.mpr (Nat.pow_le_pow_right (by decide) (Nat.le_add_right ..))⟩
  have hperm : ¬SquareMatrix.isPermutation (targets ++ others q targets) = true :=
    fun hperm => hrepeated (nodup_of_isPermutation hperm)
  unfold SquareMatrix.redimension at h
  simp only at h
  rw [if_neg hsmall, if_neg hperm] at h
  obtain rfl := Except.error.inj h
  exact Standing.refused_of_misplaced (.repeated hdim hlt hrepeated)

/-- **One step** of a circuit is added when it stands well, and refused otherwise. -/
theorem Gate.ends_advance_standing (hb : before.dim = 2 ^ q) (operator : SquareMatrix A)
    (targets : List Nat) :
    Ends (Gate.advance q before operator targets)
      (fun after => Standing.Sound ⟨q, operator.dim, targets⟩ ∧ after.dim = 2 ^ q)
      (Standing.Refused ⟨q, operator.dim, targets⟩) := by
  cases hadvance : Gate.advance q before operator targets with
  | ok after =>
    obtain ⟨hplaced, -, hafter⟩ := Gate.of_advance_ok hadvance
    exact ⟨⟨hplaced.dim_eq, hplaced.nodup, hplaced.lt⟩, hafter⟩
  | error e =>
    show Standing.Refused ⟨q, operator.dim, targets⟩ e
    unfold Gate.advance at hadvance
    cases hp : placement q targets operator with
    | error e' =>
      rw [hp] at hadvance
      obtain rfl := Except.error.inj hadvance
      exact refused_of_placement_error hp
    | ok positions =>
      cases hl : operator.redimension positions with
      | error e' =>
        simp only [hp, hl, bind, Except.bind] at hadvance
        obtain rfl := Except.error.inj hadvance
        exact refused_of_redimension_error hp hl
      | ok lift =>
        -- the lift has the size of the circuit, so that the product cannot fail
        obtain ⟨hplaced, -⟩ := placed_of_lift_ok hp hl
        obtain ⟨after, hafter⟩ := Gate.exists_advance hplaced hb
        unfold Gate.advance at hafter
        rw [hafter] at hadvance
        cases hadvance

end Step

/-! ## Whole gates -/

/-- The dimension of the operator that a gate amounts to. -/
def Gate.dim : Gate A → Nat
  | .operator matrix => matrix.dim
  | .composite qubits _ => 2 ^ qubits

mutual

/-- Where the steps inside a gate stand, in the order in which they are resolved. -/
def Gate.standings : Gate A → List Standing
  | .operator _ => []
  | .composite qubits circuit => circuit.standings qubits

/-- Where the steps of a circuit stand, those inside a step's gate before the step. -/
def Circuit.standings (qubits : Nat) : Circuit A → List Standing
  | .done => []
  | .step gate targets rest =>
    gate.standings ++ ⟨qubits, gate.dim, targets⟩ :: rest.standings qubits

end

section Resolve

variable [Zero A] [One A] [Add A] [Mul A] [BEq A]

mutual

/-- **A gate resolves when every step inside it stands well** and no circuit is too wide, and fails
for the first that does not or is. -/
theorem Gate.ends_standings : ∀ gate : Gate A, Ends gate.resolve
    (fun operator => (∀ s ∈ gate.standings, s.Sound) ∧
      (∀ q ∈ gate.widths, q ≤ SquareMatrix.maxQubits) ∧ operator.dim = gate.dim)
    (fun e => Standing.FirstRefused gate.standings e ∨ e.Exceeds gate.widths)
  | .operator matrix => by
    rw [Gate.resolve, Gate.standings, Gate.widths]
    exact ⟨fun _ hs => absurd hs List.not_mem_nil, fun _ hq => absurd hq List.not_mem_nil, rfl⟩
  | .composite qubits circuit => by
    rw [Gate.resolve, Gate.standings, Gate.widths]
    refine Ends.bind ((ends_identityOn qubits).mono_error fun _ he => ?_)
      fun start _ ⟨hqubits, hstart⟩ => ?_
    · exact Or.inr (he.mono (List.cons_subset_cons qubits (List.nil_subset circuit.widths)))
    · refine (Circuit.ends_standings circuit hstart).mono
        (fun last ⟨hsound, hwidths, hlast⟩ => ?_) fun _ he => ?_
      · exact ⟨hsound, List.forall_mem_cons.mpr ⟨hqubits, hwidths⟩, hlast⟩
      · exact he.imp_right fun hwide => hwide.mono (List.subset_cons_self qubits circuit.widths)

/-- The same of a circuit that runs after an operator of its size. -/
theorem Circuit.ends_standings : ∀ (circuit : Circuit A) {qubits : Nat} {before : SquareMatrix A},
    before.dim = 2 ^ qubits → Ends (Gate.resolveAfter qubits before circuit)
      (fun operator => (∀ s ∈ circuit.standings qubits, s.Sound) ∧
        (∀ q ∈ circuit.widths, q ≤ SquareMatrix.maxQubits) ∧ operator.dim = 2 ^ qubits)
      (fun e => Standing.FirstRefused (circuit.standings qubits) e ∨ e.Exceeds circuit.widths)
  | .done, qubits, before, hb => by
    rw [Gate.resolveAfter, Circuit.standings, Circuit.widths]
    exact ⟨fun _ hs => absurd hs List.not_mem_nil, fun _ hq => absurd hq List.not_mem_nil, hb⟩
  | .step gate targets rest, qubits, before, hb => by
    rw [Gate.resolveAfter, Circuit.standings, Circuit.widths]
    refine Ends.bind ((Gate.ends_standings gate).mono_error fun _ he => ?_)
      fun operator _ ⟨hinside, hwidths, hdim⟩ => ?_
    · exact he.imp (·.append_right (⟨qubits, gate.dim, targets⟩ :: rest.standings qubits))
        fun hwide => hwide.mono (List.subset_append_left _ _)
    rw [← hdim]
    refine Ends.bind ((Gate.ends_advance_standing hb operator targets).mono_error fun _ he => ?_)
      fun after _ ⟨hsound, hafter⟩ => ?_
    · exact Or.inl (.append_left hinside (Standing.firstRefused_cons he (rest.standings qubits)))
    have hthis : ∀ s ∈ gate.standings ++ [⟨qubits, operator.dim, targets⟩], s.Sound := by
      simpa [or_imp, forall_and] using And.intro hinside hsound
    rw [List.append_cons]
    refine (Circuit.ends_standings rest hafter).mono (fun last ⟨hrest, hbehind, hlast⟩ => ?_)
      fun e he => ?_
    · exact ⟨List.forall_mem_append.mpr ⟨hthis, hrest⟩,
        List.forall_mem_append.mpr ⟨hwidths, hbehind⟩, hlast⟩
    · exact he.imp (·.append_left hthis) fun hwide => hwide.mono (List.subset_append_right _ _)

end

/-- The operator that a gate resolves to has the dimension of the gate. -/
theorem Gate.dim_of_resolve {gate : Gate A} {operator : SquareMatrix A}
    (h : gate.resolve = .ok operator) : operator.dim = gate.dim := by
  have hends := gate.ends_standings
  rw [h] at hends
  exact hends.2.2

/-- **Which gates can be resolved.** -/
theorem Gate.exists_resolve_iff_sound {gate : Gate A} :
    (∃ operator, gate.resolve = .ok operator) ↔
      (∀ s ∈ gate.standings, s.Sound) ∧ ∀ q ∈ gate.widths, q ≤ SquareMatrix.maxQubits := by
  have hends := gate.ends_standings
  cases h : gate.resolve with
  | ok operator =>
    rw [h] at hends
    exact iff_of_true ⟨operator, rfl⟩ ⟨hends.1, hends.2.1⟩
  | error e =>
    refine iff_of_false nofun fun ⟨hsound, hwidths⟩ => ?_
    rcases hends.error_of_eq h with hrefused | ⟨q, hq, hwide, -⟩
    · obtain ⟨s, hs, hunsound⟩ := hrefused.exists_unsound
      exact hunsound (hsound s hs)
    · exact absurd (hwidths q hq) (Nat.not_le.mpr hwide)

/-- **Which composites resolve.** What dimension an operator has is known before the gate is
resolved. Resolving a composite stops at a circuit on more qubits than there is room for, or this
holds. The composite resolves exactly when every step at every level inside it stands well: its
gate's operator has dimension `2 ^ w` for the number `w` of the targets that the step lists, which
differ and are qubits of the circuit around it. The result is an operator on the qubits of the
composite. Otherwise there is a first step that does not stand well, those inside a step's gate
before the step, and the error is about it: that the number of its targets is not the one its
operator asks for, where the operator acts on qubits and this is so; and else about their placement,
with what is wrong there. -/
theorem Gate.resolve_composite_iff (qubits : Nat) (circuit : Circuit A) :
    (∀ (gate : Gate A) operator, gate.resolve = .ok operator → operator.dim = gate.dim) ∧
    ((∃ q ∈ (composite qubits circuit).widths, SquareMatrix.maxQubits < q ∧
        (composite qubits circuit).resolve = .error (.unaddressable q)) ∨
      ((∃ operator, (composite qubits circuit).resolve = .ok operator) ↔
        ∀ s ∈ circuit.standings qubits, s.Sound) ∧
      (∀ operator, (composite qubits circuit).resolve = .ok operator →
        operator.dim = 2 ^ qubits ∧ operator.entries.size = 2 ^ qubits * 2 ^ qubits) ∧
      ∀ e, (composite qubits circuit).resolve = .error e →
        ∃ before s after, circuit.standings qubits = before ++ s :: after ∧
          (∀ b ∈ before, b.Sound) ∧ ¬s.Sound ∧
          (∀ w, s.dim = 2 ^ w → s.targets.length ≠ w →
            e = .dimensionMismatch w s.targets.length) ∧
          ((∀ w, s.dim = 2 ^ w → s.targets.length = w) →
            ∃ fault, e = .invalidPermutation fault ∧ s.Misplaced fault)) := by
  refine ⟨fun _ _ => Gate.dim_of_resolve, ?_⟩
  have hends := Gate.ends_standings (composite qubits circuit)
  rw [Gate.standings] at hends
  cases h : (composite qubits circuit).resolve with
  | ok operator =>
    rw [h] at hends
    have hdim : operator.dim = 2 ^ qubits := hends.2.2
    refine .inr ⟨iff_of_true ⟨operator, rfl⟩ hends.1, fun last hlast => ?_, nofun⟩
    obtain rfl := Except.ok.inj hlast
    exact ⟨hdim, by rw [operator.size_entries, hdim]⟩
  | error e =>
    rcases hends.error_of_eq h with hrefused | ⟨q, hq, hwide, rfl⟩
    · refine .inr ⟨⟨nofun, fun hsound => ?_⟩, nofun, fun last hlast => ?_⟩
      · obtain ⟨s, hs, hunsound⟩ := hrefused.exists_unsound
        exact absurd (hsound s hs) hunsound
      · obtain rfl := Except.error.inj hlast
        obtain ⟨before, s, after, hsteps, hbefore, hs⟩ := hrefused
        exact ⟨before, s, after, hsteps, hbefore, hs.unsound, hs.arity, hs.placement⟩
    · exact .inl ⟨q, hq, hwide, rfl⟩

end Resolve

/-- A circuit that runs a circuit inside it well, and then a gate of two qubits on one qubit
twice. -/
def doubledTarget : Circuit (Amplitude Float) :=
  .step (.composite 1 (.step (.operator (.identity 2)) [0] .done)) [1]
    (.step (.operator (.identity 4)) [1, 1] .done)

/-- It is refused for the repeated target. -/
theorem Gate.resolve_composite_iff_doubledTarget :
    ∃ fault, (composite 2 doubledTarget).resolve = .error (.invalidPermutation fault) ∧
      Standing.Misplaced ⟨2, 4, [1, 1]⟩ fault := by
  have hsteps : doubledTarget.standings 2 = [⟨1, 2, [0]⟩, ⟨2, 2, [1]⟩, ⟨2, 4, [1, 1]⟩] := rfl
  have hwidths : ∀ q ∈ (composite 2 doubledTarget).widths, q ≤ SquareMatrix.maxQubits := by decide
  obtain ⟨-, ⟨q, hq, hwide, -⟩ | ⟨hiff, -, herror⟩⟩ := Gate.resolve_composite_iff 2 doubledTarget
  · exact absurd (hwidths q hq) (Nat.not_le.mpr hwide)
  rw [hsteps] at hiff herror
  cases hresolve : (composite 2 doubledTarget).resolve with
  | ok operator =>
    have hlast : Standing.Sound ⟨2, 4, [1, 1]⟩ := hiff.mp ⟨operator, hresolve⟩ _ (by decide)
    exact absurd hlast.nodup (by decide)
  | error e =>
    obtain ⟨before, s, after, hall, -, hs, -, hplacement⟩ := herror e hresolve
    have hmem : s ∈ before ++ s :: after := List.mem_append_right _ List.mem_cons_self
    rw [← hall] at hmem
    simp only [List.mem_cons, List.not_mem_nil, or_false] at hmem
    rcases hmem with rfl | rfl | rfl
    · exact absurd ⟨rfl, by decide, by decide⟩ hs
    · exact absurd ⟨rfl, by decide, by decide⟩ hs
    · obtain ⟨fault, rfl, hfault⟩ := hplacement fun w hw => Standing.width_unique rfl hw
      exact ⟨fault, rfl, hfault⟩

/-- A circuit of one qubit that runs an empty circuit of 31 qubits, all of them on that qubit. -/
def tooWide : Circuit (Amplitude Float) :=
  .step (.composite 31 .done) (List.replicate 31 0) .done

/-- The step has as many targets as it should have and repeats them. It is not refused for that: the
circuit inside is resolved first. -/
theorem Gate.resolve_tooWide :
    tooWide.standings 1 = [⟨1, 2 ^ 31, List.replicate 31 0⟩] ∧
      (List.replicate 31 0).length = 31 ∧ ¬(List.replicate 31 0).Nodup ∧
      (composite 1 tooWide).resolve = .error (.unaddressable 31) :=
  ⟨rfl, rfl, by decide, rfl⟩

end OpenQasm
