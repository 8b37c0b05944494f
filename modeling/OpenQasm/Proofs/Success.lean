import OpenQasm.Proofs.Calling

/-!
# What a success says about names

The converse of what `Names` and `Calling` say: an operation that succeeds has resolved every name
that it leads to.

* `bound_of_evaluate`: the operands of an expression that has a value.
* `resolves_of_instantiateWithin`: a gate that is instantiated, by the recursion of the expansion.
* `resolves_of_call`: a call of a laid out machine, which applies its gate at least once.
-/

namespace OpenQasm

variable {R : Type} [Scalar R] {bindings : Bindings R}

/-- An expression has a value only if all its operands have one. -/
theorem bound_of_evaluate : ∀ {e : Expr} {x : R}, e.evaluate bindings = .ok x →
    ∀ v ∈ e.variables, (bindings.lookup v.name).isSome = true
  | .real .., _, _, _, hv => absurd hv List.not_mem_nil
  | .integer .., _, _, _, hv => absurd hv List.not_mem_nil
  | .pi _, _, _, _, hv => absurd hv List.not_mem_nil
  | .operand w, x, h, v, hv => by
    rw [Expr.evaluate] at h
    rw [List.mem_singleton.mp hv]
    cases hl : bindings.lookup w.name with
    | some y => rfl
    | none =>
      rw [hl] at h
      cases h
  | .neg target _, x, h, v, hv => by
    rw [Expr.evaluate] at h
    obtain ⟨y, htarget, -⟩ := bind_eq_ok.mp h
    exact bound_of_evaluate htarget v hv
  | .binary op left right, x, h, v, hv => by
    rw [Expr.evaluate] at h
    obtain ⟨y, hleft, h⟩ := bind_eq_ok.mp h
    obtain ⟨z, hright, -⟩ := bind_eq_ok.mp h
    rcases List.mem_append.mp hv with hv | hv
    · exact bound_of_evaluate hleft v hv
    · exact bound_of_evaluate hright v hv
  | .call function target _, x, h, v, hv => by
    rw [Expr.evaluate] at h
    obtain ⟨y, htarget, -⟩ := bind_eq_ok.mp h
    exact bound_of_evaluate htarget v hv

omit [Scalar R] in
/-- Where no parameter has a value, an expression that has one has no operands. -/
theorem variables_of_bound {e : Expr}
    (h : ∀ v ∈ e.variables, (([] : Bindings R).lookup v.name).isSome = true) :
    e.variables = [] := by
  by_contra hne
  obtain ⟨v, hv⟩ := List.exists_mem_of_ne_nil _ hne
  simpa using h v hv

namespace GateTable

theorem bound_of_values {parameters : List Expr} {found : List R}
    (h : values bindings parameters = .ok found) :
    ∀ e ∈ parameters, ∀ v ∈ e.variables, (bindings.lookup v.name).isSome = true :=
  forall_right_of_forall₂ (fun _ _ he => bound_of_evaluate he) (mapM_eq_ok.mp h).flip

/-! ## Gates -/

/-- The calls of a body that is instantiated: their gates are, and their names are resolved. -/
theorem resolves_of_instantiateBody
    {instantiateCall : GateName → List R → Except RunError (Gate (Amplitude R))} {s : Signature}
    {given : List R} (hlength : s.formals.length = given.length) :
    ∀ {body : List BodyStatement} {circuit : Circuit (Amplitude R)},
      instantiateBody instantiateCall s.arguments (.ofLists s.formals given) body = .ok circuit →
      ∀ c pos, ⟨.call c, pos⟩ ∈ body →
        c.Resolves s ∧ ∃ parameters gate, instantiateCall c.gate parameters = .ok gate
  | [], _, _, _, _, hc => absurd hc List.not_mem_nil
  | ⟨.barrier _, _⟩ :: rest, circuit, h, c, pos, hc => by
    rw [instantiateBody] at h
    rcases List.mem_cons.mp hc with hc | hc
    · cases hc
    · exact resolves_of_instantiateBody hlength h c pos hc
  | ⟨.call first, _⟩ :: rest, circuit, h, c, pos, hc => by
    obtain ⟨parameters, targets, gate, after, hp, ht, hg, hrest, -⟩ :=
      instantiateBody_call_eq_ok.mp h
    rcases List.mem_cons.mp hc with hc | hc
    · cases hc
      refine ⟨⟨?_, fun e he v hv => ?_⟩, parameters, gate, hg⟩
      · refine forall_right_of_forall₂ (fun j v hj => ?_) (mapM_eq_ok.mp ht).flip
        obtain ⟨hindex, hfound⟩ := localQubit_eq_ok.mp hj
        refine ⟨hindex, ?_⟩
        obtain ⟨hlt, hname, -⟩ := List.findIdx?_eq_some_iff_getElem.mp hfound
        rw [← beq_iff_eq.mp hname]
        exact List.getElem_mem hlt
      · rw [← Bindings.lookup_ofLists hlength]
        exact bound_of_values hp e he v hv
    · exact resolves_of_instantiateBody hlength hrest c pos hc

/-- **A gate that is instantiated** leads only to names that are resolved. -/
theorem resolves_of_instantiateWithin {table : GateTable} {active : List String} {gate : GateName}
    {parameters : List R} {instantiated : Gate (Amplitude R)}
    (h : table.instantiateWithin active gate parameters = .ok instantiated) :
    table.Resolves gate := by
  intro inner hreach
  rcases Relation.ReflTransGen.cases_head hreach with rfl | ⟨next, hcalls, hreach⟩
  · cases gate with
    | rotation => trivial
    | controlledNot => trivial
    | named name =>
      obtain ⟨s, body, circuit, hfound, -, hlength, hbody, -⟩ := instantiateWithin_named_eq_ok.mp h
      exact ⟨_, hfound, fun c pos hc => (resolves_of_instantiateBody hlength hbody c pos hc).1⟩
  · obtain ⟨name, s, body, c, pos, rfl, hfound, hc, rfl⟩ := hcalls
    obtain ⟨s', body', circuit, hfound', hnew, hlength, hbody, -⟩ :=
      instantiateWithin_named_eq_ok.mp h
    rw [hfound] at hfound'
    cases hfound'
    obtain ⟨-, passed, instantiated, hinner⟩ :=
      resolves_of_instantiateBody hlength hbody c pos hc
    have hpending := pending_cons_lt (mem_names hfound) hnew
    exact resolves_of_instantiateWithin hinner inner hreach
termination_by pending table.names active

end GateTable

/-! ## Calls -/

namespace Machine

variable {m after : Machine R} {table : GateTable}

omit [Scalar R] in
/-- A call whose registers have bits is made at least once. -/
theorem repetitions_pos {gate : GateName} {operands : List Operand} {bits : List (List Nat)}
    {count : Nat} (h : repetitions gate operands bits = .ok count)
    (hbits : ∀ b ∈ bits, b ≠ []) : 0 < count := by
  unfold repetitions at h
  split at h
  · cases h
    exact Nat.zero_lt_one
  · rename_i n others hsome
    split at h
    · obtain rfl := Except.ok.inj h
      have hmem : n ∈ ((operands.zip bits).filter fun p => !p.1.isIndexed).map fun p =>
          p.2.length := by
        rw [hsome]
        exact List.mem_cons_self
      obtain ⟨p, hp, rfl⟩ := List.mem_map.mp hmem
      exact List.length_pos_of_ne_nil (hbits _ (List.of_mem_zip (List.mem_filter.mp hp).1).2)
    · cases h

omit [Scalar R] in
/-- An operand names at least one bit. -/
theorem operandBits_ne_nil (hm : m.Laid) {v : Operand} {bits : List Nat}
    (h : m.operandBits v = .ok bits) : bits ≠ [] := by
  unfold operandBits at h
  split at h
  · obtain ⟨q, -, h⟩ := bind_eq_ok.mp h
    cases h
    simp
  · obtain ⟨r, hr, h⟩ := bind_eq_ok.mp h
    cases h
    have hmem := List.mem_of_find?_eq_some (quantumRegister_eq_ok.mp hr)
    have hwidth := hm.quantum_width r hmem
    simpa [QuantumRegister.positions] using hwidth

/-- **A call that succeeds** has resolved the names of its parameters and all that its gate leads
to. -/
theorem resolves_of_call (hm : m.Laid) {c : GateCall} (h : m.call table c = ⟨after, none⟩) :
    (∀ e ∈ c.passed, e.variables = []) ∧ table.Resolves c.gate := by
  obtain ⟨calls, hcalls, heach⟩ := call_eq_ok.mp h
  unfold applications at hcalls
  obtain ⟨parameters, hp, hcalls⟩ := bind_eq_ok.mp hcalls
  obtain ⟨bits, hb, hcalls⟩ := bind_eq_ok.mp hcalls
  obtain ⟨count, hr, hcalls⟩ := bind_eq_ok.mp hcalls
  obtain rfl := (Except.ok.inj hcalls).symm
  have hrelated := mapM_eq_ok.mp (mapError_eq_ok.mp hb)
  have hbits : ∀ b ∈ bits, b ≠ [] :=
    forall_right_of_forall₂ (fun _ _ h => operandBits_ne_nil hm h) hrelated
  have hcount := repetitions_pos (mapError_eq_ok.mp hr) hbits
  constructor
  · exact fun e he => variables_of_bound (GateTable.bound_of_values hp e he)
  · obtain ⟨k, rfl⟩ := Nat.exists_eq_succ_of_ne_zero (Nat.ne_of_gt hcount)
    rw [List.range_succ_eq_map, List.map_cons, applyEach_cons] at heach
    obtain ⟨next, hfirst, -⟩ := bind_eq_ok.mp heach
    obtain ⟨gate, hgate, -⟩ := applyNamed_eq_ok.mp hfirst
    exact GateTable.resolves_of_instantiateWithin hgate

/-- A condition that is decided has resolved the names of its value. -/
theorem variables_of_condition {register : Operand} {value : Expr} {holds : Bool}
    (h : m.condition register value = .ok holds) : value.variables = [] := by
  unfold condition at h
  obtain ⟨r, -, h⟩ := bind_eq_ok.mp h
  obtain ⟨x, hx, -⟩ := bind_eq_ok.mp h
  exact variables_of_bound (bound_of_evaluate hx)

end Machine

end OpenQasm
