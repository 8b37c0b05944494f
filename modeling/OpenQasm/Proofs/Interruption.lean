import OpenQasm.Proofs.Calling
import OpenQasm.Proofs.Measuring

/-!
# Calls that are interrupted

A gate call over whole registers is one application for each element. What can fail for one of them
and not for the first is that a qubit is given twice, and that happens only where the operands are a
register and an element of the same register. The applications below that element then succeed,
and the one at it fails; nothing is rolled back.

* `checkTargets_eq_error`: the fault of qubits that exist.
* `exists_overlap`: where the first repetition of a call is given distinct qubits and a later one is
  not, a whole register meets one of its elements.
* `applyNamed_eq_error`: what can fail for a gate that can be applied to other qubits.
* **`Machine.interrupted_of_call`**: what a call that fails leaves.
-/

namespace OpenQasm

namespace Machine

/-! ## Qubits given twice -/

/-- Qubits that exist can only fail to differ. -/
theorem checkTargets_eq_error {total : Nat} {fault : RunFault} : ∀ {seen targets : List Nat},
    (∀ q ∈ targets, q < total) → checkTargets total seen targets = .error fault →
      ∃ q before rest, targets = before ++ q :: rest ∧ fault = .duplicateQubit q ∧
        (q ∈ seen ∨ q ∈ before)
  | _, [], _, h => nomatch h
  | seen, q :: rest, hlt, h => by
    obtain ⟨hq, hrest⟩ := List.forall_mem_cons.mp hlt
    rw [checkTargets, if_neg (Nat.not_le.mpr hq)] at h
    by_cases hs : seen.contains q = true
    · rw [if_pos hs] at h
      exact ⟨q, [], rest, rfl, (Except.error.inj h).symm, Or.inl (List.contains_iff_mem.mp hs)⟩
    · rw [if_neg hs] at h
      obtain ⟨p, before, later, rfl, hfault, hp⟩ := checkTargets_eq_error hrest h
      refine ⟨p, q :: before, later, rfl, hfault, ?_⟩
      rcases hp with hp | hp
      · rcases List.mem_append.mp hp with hp | hp
        · exact Or.inl hp
        · exact Or.inr (List.mem_cons.mpr (Or.inl (List.mem_singleton.mp hp)))
      · exact Or.inr (List.mem_cons_of_mem q hp)

variable {R : Type} {m after : Machine R} {table : GateTable}

/-- The qubit of an operand at a repetition: its own element, or the one that is counted. -/
theorem repetitionTarget {v : Operand} {b : List Nat} {count k : Nat}
    (hb : m.operandBits v = .ok b) (hcount : v.isIndexed = false → b.length = count)
    (hk : k < count) : ∃ r, m.quantumRegister v.name = .ok r ∧ v.index.getD k < r.width ∧
      (if b.length = 1 then b.getD 0 0 else b.getD k 0) = r.offset + v.index.getD k := by
  unfold operandBits at hb
  cases hi : v.index with
  | some i =>
    rw [hi] at hb
    obtain ⟨bit, hbit, hb⟩ := bind_eq_ok.mp hb
    obtain rfl := Except.ok.inj hb
    obtain ⟨r, hr, hlt, rfl⟩ := qubit_eq_ok.mp hbit
    exact ⟨r, hr, hlt, rfl⟩
  | none =>
    rw [hi] at hb
    obtain ⟨r, hr, hb⟩ := bind_eq_ok.mp hb
    obtain rfl := Except.ok.inj hb
    have hwidth : r.width = count := by
      have hlength := hcount (by rw [Operand.isIndexed, hi]; rfl)
      rwa [QuantumRegister.positions, List.length_map, List.length_range] at hlength
    have hget : ∀ j < r.width, r.positions.getD j 0 = r.offset + j := by
      intro j hj
      rw [List.getD_eq_getElem?_getD, QuantumRegister.positions, List.getElem?_map,
        List.getElem?_range hj]
      rfl
    refine ⟨r, hr, hwidth ▸ hk, ?_⟩
    by_cases hone : r.positions.length = 1
    · -- a register of one qubit is repeated once
      rw [QuantumRegister.positions, List.length_map, List.length_range] at hone
      obtain rfl : k = 0 := by omega
      rw [ite_self]
      exact hget 0 (hwidth ▸ hk)
    · rw [if_neg hone]
      exact hget k (hwidth ▸ hk)

/-- The operand behind a target of a repetition, and what it names at the first one. -/
theorem exists_operand {operands : List Operand} {bits : List (List Nat)} {gate : GateName}
    {count k i q : Nat} (hbits : List.Forall₂ (fun v b => m.operandBits v = .ok b) operands bits)
    (hcount : repetitions gate operands bits = .ok count) (hk : k < count)
    (hi : (repetitionTargets bits k)[i]? = some q) :
    ∃ v ∈ operands, ∃ r, m.quantumRegister v.name = .ok r ∧ v.index.getD k < r.width ∧
      q = r.offset + v.index.getD k ∧
      (repetitionTargets bits 0)[i]? = some (r.offset + v.index.getD 0) := by
  unfold repetitionTargets at hi ⊢
  rw [List.getElem?_map, Option.map_eq_some_iff] at hi
  obtain ⟨b, hb, rfl⟩ := hi
  obtain ⟨hlt, hb'⟩ := List.getElem?_eq_some_iff.mp hb
  have hlength := hbits.length_eq
  have hz : i < (operands.zip bits).length := by
    rw [List.length_zip]
    omega
  have hzip : (operands[i], b) ∈ operands.zip bits := by
    rw [← hb', ← List.getElem_zip (h := hz)]
    exact List.getElem_mem hz
  have hoperand := (List.forall₂_iff_zip.mp hbits).2 hzip
  have hwhole := length_of_repetitions hcount _ hzip
  obtain ⟨r, hr, hindex, htarget⟩ := repetitionTarget hoperand hwhole hk
  obtain ⟨s, hs, -, hfirst⟩ := repetitionTarget hoperand hwhole (Nat.zero_lt_of_lt hk)
  obtain rfl := Except.ok.inj (hr.symm.trans hs)
  refine ⟨operands[i], List.getElem_mem _, r, hr, hindex, htarget, ?_⟩
  rw [List.getElem?_map, hb, Option.map_some, hfirst]

/-- **Where a repetition is given a qubit twice that the first one was given once**, a whole
register meets one of its elements. -/
theorem exists_overlap (hm : m.Laid) {operands : List Operand} {bits : List (List Nat)}
    {gate : GateName} {count k i j q : Nat}
    (hbits : List.Forall₂ (fun v b => m.operandBits v = .ok b) operands bits)
    (hcount : repetitions gate operands bits = .ok count) (hk : k < count)
    (hfirst : (repetitionTargets bits 0).Nodup) (hne : i ≠ j)
    (hi : (repetitionTargets bits k)[i]? = some q) (hj : (repetitionTargets bits k)[j]? = some q) :
    1 ≤ k ∧ ∃ v ∈ operands, ∃ w ∈ operands, v.name = w.name ∧ v.index = none ∧
      w.index = some k ∧ m.qubit w.name k = .ok q := by
  obtain ⟨v, hv, r, hr, hvi, hqv, hv0⟩ := exists_operand hbits hcount hk hi
  obtain ⟨w, hw, s, hs, hwi, hqw, hw0⟩ := exists_operand hbits hcount hk hj
  obtain ⟨hrmem, hrname⟩ := mem_of_quantumRegister hr
  obtain ⟨hsmem, hsname⟩ := mem_of_quantumRegister hs
  -- one qubit is in one register only
  obtain rfl : r = s := hm.tiled.unique hvi hwi (hqv.symm.trans hqw) hrmem hsmem
  have hname : v.name = w.name := hrname.symm.trans hsname
  have hindex : v.index.getD k = w.index.getD k := by omega
  have hother : v.index.getD 0 ≠ w.index.getD 0 := by
    intro h
    rw [h] at hv0
    exact hne (BitIndex.index_unique hfirst hv0 hw0)
  have hqubit : m.qubit w.name k = .ok q → m.qubit v.name k = .ok q := by
    rw [hname]
    exact id
  cases hvx : v.index with
  | none =>
    cases hwx : w.index with
    | none =>
      rw [hvx, hwx] at hother
      exact absurd rfl hother
    | some b =>
      simp only [hvx, hwx, Option.getD_none, Option.getD_some] at hindex hother hvi hqv
      subst hindex
      exact ⟨by omega, v, hv, w, hw, hname, hvx, hwx, qubit_eq_ok.mpr ⟨r, hs, hvi, hqv⟩⟩
  | some a =>
    cases hwx : w.index with
    | none =>
      simp only [hvx, hwx, Option.getD_none, Option.getD_some] at hindex hother hwi hqw
      subst hindex
      exact ⟨by omega, w, hw, v, hv, hname.symm, hwx, hvx, qubit_eq_ok.mpr ⟨r, hr, hwi, hqw⟩⟩
    | some b =>
      simp only [hvx, hwx, Option.getD_some] at hindex hother
      exact absurd hindex hother

/-! ## Calls -/

section Calls

variable [Scalar R]

/-- A call that stops at repetition `k`, which is given one qubit twice: element `k` of a register
stands next to the whole register among the operands. The repetitions before it have been
applied. -/
structure Interrupted (m : Machine R) (table : GateTable) (c : GateCall) (k : Nat)
    (fault : RunFault) (after : Machine R) : Prop where
  pos : 1 ≤ k
  overlap : ∃ v ∈ c.operands, ∃ w ∈ c.operands, v.name = w.name ∧ v.index = none ∧
    w.index = some k ∧ ∃ q, m.qubit w.name k = .ok q ∧ fault = .duplicateQubit q
  applied : ∃ done next rest, m.applications c = .ok (done ++ next :: rest) ∧ done.length = k ∧
    m.applyEach table done = .ok after

/-- The applications of a call, by their numbers. -/
theorem of_applications_ok {c : GateCall} {calls : List (Applied R)}
    (h : m.applications c = .ok calls) : ∃ parameters bits count,
      List.Forall₂ (fun v b => m.operandBits v = .ok b) c.operands bits ∧
      repetitions c.gate c.operands bits = .ok count ∧
      ∀ k a, calls[k]? = some a →
        k < count ∧ a = ⟨c.gate, parameters, repetitionTargets bits k⟩ := by
  obtain ⟨parameters, -, h⟩ := bind_eq_ok.mp h
  obtain ⟨bits, hbits, h⟩ := bind_eq_ok.mp h
  obtain ⟨count, hcount, h⟩ := bind_eq_ok.mp h
  obtain rfl := Except.ok.inj h
  refine ⟨parameters, bits, count, mapM_eq_ok.mp (mapError_eq_ok.mp hbits),
    mapError_eq_ok.mp hcount, fun k a hk => ?_⟩
  rw [List.getElem?_map, Option.map_eq_some_iff] at hk
  obtain ⟨j, hj, rfl⟩ := hk
  obtain ⟨hlt, rfl⟩ := List.getElem?_eq_some_iff.mp hj
  rw [List.length_range] at hlt
  rw [List.getElem_range]
  exact ⟨hlt, rfl⟩

/-- Applications change the vector and nothing else. -/
theorem applyEach_vector {calls : List (Applied R)} (h : m.applyEach table calls = .ok after) :
    after = { m with vector := after.vector } := by
  induction calls generalizing m with
  | nil => exact (Except.ok.inj h) ▸ rfl
  | cons a rest ih =>
    rw [applyEach_cons] at h
    obtain ⟨next, ha, hrest⟩ := bind_eq_ok.mp h
    obtain ⟨instantiated, -, happly⟩ := applyNamed_eq_ok.mp ha
    obtain ⟨-, -, operator, -, -, rfl⟩ := apply_eq_ok.mp happly
    have hafter := ih hrest
    exact hafter

/-- **A gate that can be applied to some qubits** can be applied to others, unless they are too many
or one is given twice. -/
theorem applyNamed_eq_error {next : Machine R} {gate : GateName} {parameters : List R}
    {first targets : List Nat} {e : RunError}
    (hfirst : m.applyNamed table gate parameters first = .ok next)
    (hlength : targets.length = first.length) (hlt : ∀ q ∈ targets, q < after.qubits)
    (h : after.applyNamed table gate parameters targets = .error e) :
    ∃ q before rest, targets = before ++ q :: rest ∧ e = .bare (.duplicateQubit q) ∧
      q ∈ before := by
  obtain ⟨instantiated, hinstantiate, happly⟩ := applyNamed_eq_ok.mp hfirst
  obtain ⟨-, -, operator, hresolve, hdim, -⟩ := apply_eq_ok.mp happly
  cases hcheck : checkTargets after.qubits [] targets with
  | ok u =>
    have hdistinct := (checkTargets_eq_ok.mp hcheck).2
    have hok := applyNamed_eq_ok.mpr ⟨instantiated, hinstantiate,
      apply_eq_ok.mpr ⟨hlt, hdistinct, operator, hresolve, hlength ▸ hdim, rfl⟩⟩
    rw [hok] at h
    cases h
  | error fault =>
    rw [applyNamed, hinstantiate] at h
    simp only [bind, Except.bind, apply, hcheck] at h
    obtain ⟨q, before, rest, hsplit, rfl, hq⟩ := checkTargets_eq_error hlt hcheck
    exact ⟨q, before, rest, hsplit, (Except.error.inj h).symm, hq.resolve_left List.not_mem_nil⟩

omit [Scalar R] in
/-- The repetitions of a call act on qubits of the machine. -/
theorem repetitionTargets_lt (hm : m.Laid) {operands : List Operand} {bits : List (List Nat)}
    {gate : GateName} {count k : Nat}
    (hbits : List.Forall₂ (fun v b => m.operandBits v = .ok b) operands bits)
    (hcount : repetitions gate operands bits = .ok count) (hk : k < count) :
    ∀ q ∈ repetitionTargets bits k, q < m.qubits := by
  intro q hq
  obtain ⟨i, hi⟩ := List.mem_iff_getElem?.mp hq
  obtain ⟨v, -, r, hr, hindex, rfl, -⟩ := exists_operand hbits hcount hk hi
  have hwithin := hm.within_of_quantumRegister hr
  omega

/-- **A repetition that fails after the first one has succeeded** is given one qubit twice. -/
theorem overlap_of_repetition (hm : m.Laid) {operands : List Operand} {bits : List (List Nat)}
    {gate : GateName} {count k : Nat}
    (hbits : List.Forall₂ (fun v b => m.operandBits v = .ok b) operands bits)
    (hcount : repetitions gate operands bits = .ok count) (hk : k < count)
    {parameters : List R} {start : Machine R} {e : RunError}
    (hstart : m.applyNamed table gate parameters (repetitionTargets bits 0) = .ok start)
    (hqubits : after.qubits = m.qubits)
    (hfails : after.applyNamed table gate parameters (repetitionTargets bits k) = .error e) :
    1 ≤ k ∧ ∃ v ∈ operands, ∃ w ∈ operands, v.name = w.name ∧ v.index = none ∧ w.index = some k ∧
      ∃ q, m.qubit w.name k = .ok q ∧ e.fault = .duplicateQubit q := by
  have hlength : (repetitionTargets bits k).length = (repetitionTargets bits 0).length := by
    rw [repetitionTargets, repetitionTargets, List.length_map, List.length_map]
  obtain ⟨q, before, later, hsplit, rfl, hq⟩ := applyNamed_eq_error hstart hlength
    (hqubits ▸ repetitionTargets_lt hm hbits hcount hk) hfails
  obtain ⟨instantiated, -, happly⟩ := applyNamed_eq_ok.mp hstart
  have hdistinct := (apply_eq_ok.mp happly).2.1
  obtain ⟨i, hi⟩ := List.mem_iff_getElem?.mp hq
  have hlt : i < before.length := BitIndex.lt_length_of_getElem? hi
  obtain ⟨hpos, v, hv, w, hw, hname, hvx, hwx, hqubit⟩ :=
    exists_overlap hm hbits hcount hk hdistinct (Nat.ne_of_lt hlt)
      (by rw [hsplit, List.getElem?_append_left hlt, hi]) (by rw [hsplit]; simp)
  exact ⟨hpos, v, hv, w, hw, hname, hvx, hwx, q, hqubit, rfl⟩

/-- **What a call that fails leaves**: the machine as it was, or what the repetitions have applied
before the one at which a whole register meets one of its elements. -/
theorem interrupted_of_call (hm : m.Laid) {c : GateCall} {e : RunError}
    (h : m.call table c = ⟨after, some e⟩) :
    after = { m with vector := after.vector } ∧
      (after.vector = m.vector ∨ ∃ k, m.Interrupted table c k e.fault after) := by
  rw [call_eq] at h
  cases hcalls : m.applications c with
  | error found =>
    rw [hcalls] at h
    cases h
    exact ⟨rfl, Or.inl rfl⟩
  | ok calls =>
    rw [hcalls] at h
    obtain ⟨done, a, rest, next, rfl, hdone, ha⟩ := Outcome.forAll_eq_error h
    obtain ⟨hfails, rfl⟩ := Outcome.ofExcept_eq_error.mp ha
    have happlied : m.applyEach table done = .ok after :=
      (Outcome.forAll_ofExcept (fun (m : Machine R) (a : Applied R) =>
        m.applyNamed table a.gate a.parameters a.bits) m after done).mp hdone
    have hvector := applyEach_vector happlied
    refine ⟨hvector, ?_⟩
    cases done with
    | nil =>
      obtain rfl := Except.ok.inj happlied
      exact Or.inl rfl
    | cons first others =>
      obtain ⟨parameters, bits, count, hbits, hcount, hnumbered⟩ := of_applications_ok hcalls
      obtain ⟨-, hfirst⟩ := hnumbered 0 first rfl
      obtain ⟨hk, hstuck⟩ := hnumbered (first :: others).length a (by simp)
      have heach := happlied
      rw [applyEach_cons, hfirst] at heach
      obtain ⟨start, hstart, -⟩ := bind_eq_ok.mp heach
      have hqubits : after.qubits = m.qubits := by rw [hvector, qubits, qubits]
      rw [hstuck] at hfails
      obtain ⟨hpos, hoverlap⟩ := overlap_of_repetition hm hbits hcount hk hstart hqubits hfails
      exact Or.inr ⟨_, hpos, hoverlap, first :: others, a, rest, hcalls, rfl, happlied⟩

/-- What an operation that fails leaves. -/
theorem interrupted_of_operate (hm : m.Laid) {o : Operation} {e : RunError}
    (h : m.operate table o = ⟨after, some e⟩) :
    after = { m with vector := after.vector } ∧
      (after.vector = m.vector ∨ ∃ c k, o = .call c ∧ m.Interrupted table c k e.fault after) := by
  cases o with
  | call c =>
    obtain ⟨hvector, hsame | ⟨k, hk⟩⟩ := interrupted_of_call hm h
    · exact ⟨hvector, Or.inl hsame⟩
    · exact ⟨hvector, Or.inr ⟨c, k, rfl, hk⟩⟩
  | measure source target =>
    obtain ⟨-, rfl⟩ := Outcome.ofExcept_eq_error.mp h
    exact ⟨rfl, Or.inl rfl⟩
  | reset target =>
    obtain ⟨-, rfl⟩ := Outcome.ofExcept_eq_error.mp h
    exact ⟨rfl, Or.inl rfl⟩

end Calls

end Machine

end OpenQasm
