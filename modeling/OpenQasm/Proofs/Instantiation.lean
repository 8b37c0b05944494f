import OpenQasm.Proofs.Fallible

/-!
# What instantiating a gate does

The recursion of `GateTable.instantiateWithin` carries a proof that the name it finds is declared.
`instantiateWithin_named` is the equation without it, and the other lemmas say what the success of
each part means: `localQubit_eq_ok` for an operand, `instantiateBody_call_eq_ok` for a call in a
body, `instantiateWithin_named_eq_ok` for a defined gate.

All operators in an instantiated gate are those of `U` and `CX` (`every_of_instantiateWithin`).
-/

namespace OpenQasm

namespace GateTable

variable {R : Type} [Scalar R] {table : GateTable}

theorem localQubit_eq_ok {arguments : List String} {v : Operand} {j : Nat} :
    localQubit arguments v = .ok j ↔
      v.isIndexed = false ∧ arguments.findIdx? (· == v.name) = some j := by
  unfold localQubit
  by_cases hi : v.isIndexed = true
  · rw [if_pos hi, hi]
    exact ⟨nofun, fun h => nomatch h.1⟩
  · rw [if_neg hi]
    rw [Bool.not_eq_true] at hi
    cases hf : arguments.findIdx? (· == v.name) with
    | none => exact ⟨nofun, fun h => nomatch h.2⟩
    | some k =>
      exact ⟨fun h => ⟨hi, by rw [Except.ok.inj h]⟩, fun h => by rw [Option.some.inj h.2]⟩

/-- A call in a body: its parameters have values, its operands are formal arguments, its gate can
be instantiated, and so can what follows. -/
theorem instantiateBody_call_eq_ok
    {instantiateCall : GateName → List R → Except RunError (Gate (Amplitude R))}
    {arguments : List String} {bindings : Bindings R} {c : GateCall} {pos : SourcePos}
    {rest : List BodyStatement} {circuit : Circuit (Amplitude R)} :
    instantiateBody instantiateCall arguments bindings (⟨.call c, pos⟩ :: rest) = .ok circuit ↔
      ∃ parameters targets gate after, values bindings c.passed = .ok parameters ∧
        c.operands.mapM (localQubit arguments) = .ok targets ∧
        instantiateCall c.gate parameters = .ok gate ∧
        instantiateBody instantiateCall arguments bindings rest = .ok after ∧
        circuit = .step gate targets after := by
  simp only [instantiateBody, bind_eq_ok, mapError_eq_ok]
  constructor
  · rintro ⟨parameters, hp, targets, ht, gate, hg, after, ha, h⟩
    exact ⟨parameters, targets, gate, after, hp, ht, hg, ha, (Except.ok.inj h).symm⟩
  · rintro ⟨parameters, targets, gate, after, hp, ht, hg, ha, rfl⟩
    exact ⟨parameters, hp, targets, ht, gate, hg, after, ha, rfl⟩

theorem instantiateWithin_rotation_eq_ok {active : List String} {parameters : List R}
    {gate : Gate (Amplitude R)} :
    table.instantiateWithin active .rotation parameters = .ok gate ↔
      ∃ theta phi lambda, parameters = [theta, phi, lambda] ∧
        gate = .rotation theta phi lambda := by
  unfold instantiateWithin
  constructor
  · intro h
    split at h
    · exact ⟨_, _, _, rfl, (Except.ok.inj h).symm⟩
    · cases h
  · rintro ⟨theta, phi, lambda, rfl, rfl⟩
    rfl

theorem instantiateWithin_controlledNot (active : List String) (parameters : List R) :
    table.instantiateWithin active .controlledNot parameters = .ok .controlledNot := by
  unfold instantiateWithin
  rfl

/-- The gate of a name that is not built in. -/
theorem instantiateWithin_named (active : List String) (name : String) (parameters : List R) :
    table.instantiateWithin active (.named name) parameters =
      match table.lookup name with
      | none => .error (.bare (.undefinedGate name))
      | some .sealed => .error (.bare (.opaqueGate name))
      | some (.defined signature body) =>
        if name ∈ active then .error (.bare (.recursiveGate name))
        else if signature.formals.length ≠ parameters.length then
          .error (.bare (.sizeMismatch
            (.gateParameters name signature.formals.length parameters.length)))
        else (instantiateBody (table.instantiateWithin (name :: active)) signature.arguments
          (.ofLists signature.formals parameters) body).map
            (.composite signature.arguments.length) := by
  rw [instantiateWithin]
  split <;> rename_i hfound <;> conv_rhs => rw [hfound]
  simp only [dite_eq_ite]
  rfl

/-- A defined gate is the circuit of its body, under one more active name. -/
theorem instantiateWithin_named_eq_ok {active : List String} {name : String} {parameters : List R}
    {gate : Gate (Amplitude R)} :
    table.instantiateWithin active (.named name) parameters = .ok gate ↔
      ∃ signature body circuit, table.lookup name = some (.defined signature body) ∧
        name ∉ active ∧ signature.formals.length = parameters.length ∧
        instantiateBody (table.instantiateWithin (name :: active)) signature.arguments
          (.ofLists signature.formals parameters) body = .ok circuit ∧
        gate = .composite signature.arguments.length circuit := by
  rw [instantiateWithin_named]
  constructor
  · intro h
    split at h
    · cases h
    · cases h
    · rename_i signature body hfound
      split at h
      · cases h
      · rename_i hnew
        split at h
        · cases h
        · rename_i hlength
          cases hb : instantiateBody (table.instantiateWithin (name :: active))
              signature.arguments (.ofLists signature.formals parameters) body with
          | error e => rw [hb] at h; cases h
          | ok circuit =>
            rw [hb] at h
            exact ⟨signature, body, circuit, hfound, hnew, not_ne_iff.mp hlength, hb,
              (Except.ok.inj h).symm⟩
  · rintro ⟨signature, body, circuit, hfound, hnew, hlength, hbody, rfl⟩
    simp only [hfound, if_neg hnew, hlength, ne_eq, not_true_eq_false, if_false, hbody]
    rfl

end GateTable

/-! ## The operators inside a gate -/

section Every

variable {A : Type}

mutual

/-- All operators in a gate are good. -/
def Gate.Every (good : SquareMatrix A → Prop) : Gate A → Prop
  | .operator matrix => good matrix
  | .composite _ circuit => circuit.Every good

/-- All operators in a circuit are good. -/
def Circuit.Every (good : SquareMatrix A → Prop) : Circuit A → Prop
  | .done => True
  | .step gate _ rest => gate.Every good ∧ rest.Every good

end

end Every

namespace GateTable

variable {R : Type} [Scalar R] {table : GateTable} {good : SquareMatrix (Amplitude R) → Prop}

/-- The circuit of a body whose calls are instantiated to gates of good operators. -/
theorem every_of_instantiateBody
    {instantiateCall : GateName → List R → Except RunError (Gate (Amplitude R))}
    (hcalls : ∀ gate parameters instantiated, instantiateCall gate parameters = .ok instantiated →
      instantiated.Every good)
    {arguments : List String} {bindings : Bindings R} :
    ∀ {body : List BodyStatement} {circuit : Circuit (Amplitude R)},
      instantiateBody instantiateCall arguments bindings body = .ok circuit → circuit.Every good
  | [], _, h => by
    obtain rfl := Except.ok.inj h
    trivial
  | ⟨.barrier _, _⟩ :: rest, _, h => by
    rw [instantiateBody] at h
    exact every_of_instantiateBody hcalls h
  | ⟨.call c, pos⟩ :: rest, _, h => by
    obtain ⟨parameters, targets, gate, after, -, -, hg, hrest, rfl⟩ :=
      instantiateBody_call_eq_ok.mp h
    rw [Circuit.Every]
    exact ⟨hcalls _ _ _ hg, every_of_instantiateBody hcalls hrest⟩

/-- **Instantiation makes gates of good operators** if `U` and `CX` are good, whatever the table
is. -/
theorem every_of_instantiateWithin
    (hrotation : ∀ theta phi lambda : R, (Gate.rotation theta phi lambda).Every good)
    (hcontrolledNot : Gate.controlledNot.Every good) {active : List String} {gate : GateName}
    {parameters : List R} {instantiated : Gate (Amplitude R)}
    (h : table.instantiateWithin active gate parameters = .ok instantiated) :
    instantiated.Every good := by
  cases gate with
  | rotation =>
    obtain ⟨theta, phi, lambda, rfl, rfl⟩ := instantiateWithin_rotation_eq_ok.mp h
    exact hrotation theta phi lambda
  | controlledNot =>
    rw [instantiateWithin_controlledNot] at h
    obtain rfl := Except.ok.inj h
    exact hcontrolledNot
  | named name =>
    obtain ⟨signature, body, circuit, hfound, hnew, -, hbody, rfl⟩ :=
      instantiateWithin_named_eq_ok.mp h
    -- the calls of the body are instantiated with one more active name
    have hpending := pending_cons_lt (mem_names hfound) hnew
    rw [Gate.Every]
    exact every_of_instantiateBody
      (fun _ _ _ hg => every_of_instantiateWithin hrotation hcontrolledNot hg) hbody
termination_by pending table.names active

end GateTable

end OpenQasm
