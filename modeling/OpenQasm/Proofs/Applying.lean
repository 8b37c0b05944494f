import Mathlib.Algebra.Group.Nat.Defs
import OpenQasm.Proofs.Fallible

/-!
# Applying gates to a machine

When the steps of a gate call succeed, and what they leave: `checkTargets_eq_ok` for the bits it is
applied to, `apply_eq_ok` for a gate, `applyNamed_eq_ok` for the gate of a name. A call stands for a
list of applications (`applications`), and succeeds when each of them does (`call_eq_ok`).
-/

namespace OpenQasm

/-- A gate with the values of its parameters, on bits of the basis index. -/
structure Applied (R : Type) where
  gate : GateName
  parameters : List R
  bits : List Nat

namespace Outcome

variable {S α : Type}

theorem forAll_map {β : Type} (activity : S → β → Outcome S) (g : α → β) : ∀ (s : S)
    (items : List α), forAll activity s (items.map g) = forAll (fun s a => activity s (g a)) s items
  | _, [] => rfl
  | s, a :: rest => by
    rw [List.map_cons, forAll, forAll]
    split
    · exact forAll_map activity g _ rest
    · rfl

theorem ofExcept_eq_ok {s after : S} {x : Except RunError S} :
    ofExcept s x = ⟨after, none⟩ ↔ x = .ok after := by
  cases x with
  | error e => exact ⟨nofun, nofun⟩
  | ok next =>
    exact ⟨fun h => congrArg Except.ok (congrArg Outcome.state h), fun h => by cases h; rfl⟩

theorem ofExcept_eq_error {s after : S} {x : Except RunError S} {e : RunError} :
    ofExcept s x = ⟨after, some e⟩ ↔ x = .error e ∧ after = s := by
  cases x with
  | ok next => exact ⟨nofun, nofun⟩
  | error found =>
    constructor
    · intro h
      cases h
      exact ⟨rfl, rfl⟩
    · rintro ⟨h, rfl⟩
      cases h
      rfl

/-- An activity that leaves a new state or stops, run for every item. -/
theorem forAll_ofExcept (f : S → α → Except RunError S) : ∀ (s after : S) (items : List α),
    forAll (fun s a => ofExcept s (f s a)) s items = ⟨after, none⟩ ↔
      items.foldlM f s = .ok after
  | s, after, [] => by
    rw [List.foldlM_nil]
    exact ⟨fun h => congrArg Except.ok (congrArg Outcome.state h), fun h => by cases h; rfl⟩
  | s, after, a :: rest => by
    rw [List.foldlM_cons, forAll]
    cases hf : f s a with
    | error e => exact ⟨nofun, nofun⟩
    | ok next => exact forAll_ofExcept f next after rest

/-- A sequence that fails: some items succeed, and the next one fails. -/
theorem forAll_eq_error {activity : S → α → Outcome S} {after : S} {e : RunError} :
    ∀ {s : S} {items : List α}, forAll activity s items = ⟨after, some e⟩ →
      ∃ done a rest next, items = done ++ a :: rest ∧ forAll activity s done = ⟨next, none⟩ ∧
        activity next a = ⟨after, some e⟩
  | _, [], h => nomatch h
  | s, a :: rest, h => by
    rw [forAll] at h
    cases hfirst : activity s a with
    | mk first error? =>
      rw [hfirst] at h
      cases error? with
      | some found => exact ⟨[], a, rest, s, rfl, rfl, hfirst.trans h⟩
      | none =>
        obtain ⟨done, b, later, next, rfl, hdone, hb⟩ := forAll_eq_error h
        refine ⟨a :: done, b, later, next, rfl, ?_, hb⟩
        rw [forAll, hfirst]
        exact hdone

/-- A sequence goes on where the first part of it has ended. -/
theorem forAll_append {activity : S → α → Outcome S} {middle : S} : ∀ {s : S} {items : List α},
    forAll activity s items = ⟨middle, none⟩ → ∀ rest,
      forAll activity s (items ++ rest) = forAll activity middle rest
  | _, [], h, _ => by cases h; rfl
  | s, a :: others, h, rest => by
    rw [List.cons_append, forAll]
    rw [forAll] at h
    split at h
    · exact forAll_append h rest
    · rename_i hstopped
      rw [h] at hstopped
      exact absurd rfl (hstopped middle)

/-- All or nothing keeps what success keeps. -/
theorem invariant_ofExcept {P : S → Prop} {s : S} {x : Except RunError S} (hs : P s)
    (h : ∀ after, x = .ok after → P after) : P (ofExcept s x).state := by
  cases x with
  | error e => exact hs
  | ok after => exact h after rfl

/-- A sequence keeps what each of its items keeps. -/
theorem invariant_forAll_of_mem {P : S → Prop} {s : S} {activity : S → α → Outcome S}
    {items : List α}
    (h : ∀ s, ∀ a ∈ items, P s → P (activity s a).state) (hs : P s) :
    P (forAll activity s items).state := by
  induction items generalizing s with
  | nil => exact hs
  | cons a rest ih =>
    have hfirst := h s a List.mem_cons_self hs
    rw [forAll]
    split
    · rename_i next hnext
      rw [hnext] at hfirst
      exact ih (fun s b hb => h s b (List.mem_cons_of_mem a hb)) hfirst
    · exact hfirst

/-- A sequence keeps what each of its steps keeps. -/
theorem invariant_forAll {P : S → Prop} {s : S} {activity : S → α → Outcome S}
    (h : ∀ s a, P s → P (activity s a).state) (items : List α) (hs : P s) :
    P (forAll activity s items).state :=
  invariant_forAll_of_mem (fun s a _ => h s a) hs

end Outcome

namespace Machine

/-! ## One application -/

theorem checkTargets_eq_ok {total : Nat} : ∀ {seen targets : List Nat},
    checkTargets total seen targets = .ok () ↔
      (∀ q ∈ targets, q < total ∧ q ∉ seen) ∧ targets.Nodup
  | seen, [] => by simp [checkTargets]
  | seen, q :: rest => by
    unfold checkTargets
    by_cases hq : total ≤ q
    · rw [if_pos hq]
      refine ⟨nofun, fun h => absurd (h.1 q List.mem_cons_self).1 (Nat.not_lt.mpr hq)⟩
    · rw [if_neg hq]
      by_cases hs : seen.contains q = true
      · rw [if_pos hs]
        exact ⟨nofun, fun h => absurd (List.contains_iff_mem.mp hs)
          (h.1 q List.mem_cons_self).2⟩
      · rw [if_neg hs, checkTargets_eq_ok]
        rw [List.contains_iff_mem] at hs
        simp only [List.mem_append, List.mem_cons, List.not_mem_nil, or_false, List.nodup_cons]
        constructor
        · rintro ⟨hrest, hd⟩
          refine ⟨?_, fun hm => (hrest q hm).2 (Or.inr rfl), hd⟩
          rintro p (rfl | hp)
          · exact ⟨by omega, hs⟩
          · exact ⟨(hrest p hp).1, fun hps => (hrest p hp).2 (Or.inl hps)⟩
        · rintro ⟨hall, hnew, hd⟩
          refine ⟨fun p hp => ⟨(hall p (Or.inr hp)).1, ?_⟩, hd⟩
          rintro (hps | rfl)
          · exact (hall p (Or.inr hp)).2 hps
          · exact hnew hp

variable {R : Type} [Scalar R] {m after : Machine R} {table : GateTable}

/-- A gate can be applied to distinct qubits that exist, when it amounts to an operator of their
number. -/
theorem apply_eq_ok {gate : Gate (Amplitude R)} {targets : List Nat} :
    m.apply gate targets = .ok after ↔
      (∀ q ∈ targets, q < m.qubits) ∧ targets.Nodup ∧
        ∃ operator, gate.resolve = .ok operator ∧ operator.dim = 2 ^ targets.length ∧
          after = { m with
            vector := ⟨Kernel.applyOnTargets m.vector.entries operator.entries targets⟩ } := by
  have htargets : checkTargets m.qubits [] targets = .ok () ↔
      (∀ q ∈ targets, q < m.qubits) ∧ targets.Nodup := by
    simp only [checkTargets_eq_ok, List.not_mem_nil, not_false_eq_true, and_true]
  simp only [apply, bind_eq_ok, mapError_eq_ok]
  constructor
  · rintro ⟨⟨⟩, ht, operator, hr, h⟩
    obtain ⟨hlt, hd⟩ := htargets.mp ht
    by_cases hdim : operator.dim ≠ Nat.pow 2 targets.length
    · rw [if_pos hdim] at h
      cases h
    · rw [if_neg hdim] at h
      exact ⟨hlt, hd, operator, hr, not_ne_iff.mp hdim, (Except.ok.inj h).symm⟩
  · rintro ⟨hlt, hd, operator, hr, hdim, rfl⟩
    exact ⟨(), htargets.mpr ⟨hlt, hd⟩, operator, hr, if_neg (not_ne_iff.mpr hdim)⟩

theorem applyNamed_eq_ok {gate : GateName} {parameters : List R} {targets : List Nat} :
    m.applyNamed table gate parameters targets = .ok after ↔
      ∃ instantiated, table.instantiate gate parameters = .ok instantiated ∧
        m.apply instantiated targets = .ok after := by
  simp only [applyNamed, bind_eq_ok, mapError_eq_ok]

/-! ## A call as a list of applications -/

/-- The applications that a call stands for, in order. -/
def applications (m : Machine R) (c : GateCall) : Except RunError (List (Applied R)) := do
  let parameters ← GateTable.values [] c.passed
  let bits ← (c.operands.mapM m.operandBits).mapError .bare
  let count ← (repetitions c.gate c.operands bits).mapError .bare
  return (List.range count).map fun k => ⟨c.gate, parameters, repetitionTargets bits k⟩

/-- Execute applications up to the first that fails. -/
def applyEach (table : GateTable) (m : Machine R) (calls : List (Applied R)) :
    Except RunError (Machine R) :=
  calls.foldlM (fun m a => m.applyNamed table a.gate a.parameters a.bits) m

theorem applyEach_cons (a : Applied R) (rest : List (Applied R)) :
    m.applyEach table (a :: rest) =
      (m.applyNamed table a.gate a.parameters a.bits >>= (·.applyEach table rest)) :=
  List.foldlM_cons

theorem applyEach_append (first second : List (Applied R)) :
    m.applyEach table (first ++ second) =
      (m.applyEach table first >>= (·.applyEach table second)) := List.foldlM_append

/-- A call that is prepared executes its applications. -/
theorem call_eq (m : Machine R) (c : GateCall) :
    m.call table c =
      match m.applications c with
      | .error e => ⟨m, some e⟩
      | .ok calls => Outcome.forAll
          (fun m a => .ofExcept m (m.applyNamed table a.gate a.parameters a.bits)) m calls := by
  unfold call applications
  cases GateTable.values ([] : Bindings R) c.passed with
  | error e => rfl
  | ok parameters =>
    cases hb : c.operands.mapM m.operandBits with
    | error e => rfl
    | ok bits =>
      cases hc : repetitions c.gate c.operands bits with
      | error e => simp only [bind, Except.bind, Except.mapError, hc]
      | ok count =>
        simp only [bind, Except.bind, Except.mapError, hc, pure, Except.pure, Outcome.forAll_map]

/-- **A call succeeds when each of its applications does.** -/
theorem call_eq_ok {c : GateCall} :
    m.call table c = ⟨after, none⟩ ↔
      ∃ calls, m.applications c = .ok calls ∧ m.applyEach table calls = .ok after := by
  rw [call_eq]
  cases m.applications c with
  | error e => exact ⟨nofun, nofun⟩
  | ok calls =>
    refine Iff.trans (Outcome.forAll_ofExcept (fun m a => _) m after calls) ?_
    exact ⟨fun h => ⟨calls, rfl, h⟩, fun ⟨_, h, he⟩ => by cases h; exact he⟩

end Machine

end OpenQasm
