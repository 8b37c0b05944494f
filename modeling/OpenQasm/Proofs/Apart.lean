import OpenQasm.Proofs.Names
import OpenQasm.Proofs.Spread

/-!
# Gates made of calls with distinct operands

Which declared gates are instantiated to spread gates: those that lead to no call with an operand
named twice (`GateTable.Apart`). The checker does not ask for it.

* **`GateTable.spread_iff`**: the steps inside an instantiated gate are spread when the calls that
  it was made from name distinct operands, and only then.
* `GateTable.leadsToArity_of_mem_widths`: a circuit inside it is as wide as a gate that it leads to
  has arguments.
* `GateTable.Exceeds`: the error of a circuit inside it that is too wide for an address space.
-/

namespace OpenQasm

namespace GateTable

variable {R : Type} [Scalar R] {table : GateTable}

/-- No call in the bodies that a gate leads to names an operand twice. -/
def Apart (table : GateTable) (gate : GateName) : Prop :=
  ∀ name, Relation.ReflTransGen table.Calls gate (.named name) →
    ∀ s body, table.lookup name = some (.defined s body) →
      ∀ c pos, ⟨.call c, pos⟩ ∈ body → (c.operands.map Operand.name).Nodup

/-- A gate that is built in is apart. -/
theorem apart_of_primitive {gate : GateName} (h : gate = .rotation ∨ gate = .controlledNot) :
    table.Apart gate := by
  intro name hreach
  rcases Relation.ReflTransGen.cases_head hreach with heq | ⟨_, hcalls, _⟩
  · rw [heq] at h
    rcases h with h | h <;> cases h
  · obtain ⟨first, _, _, _, _, heq, -⟩ := hcalls
    rw [heq] at h
    rcases h with h | h <;> cases h

/-- A defined gate is apart when the calls in its body and their gates are. -/
theorem apart_named_iff {name : String} {s : Signature} {body : List BodyStatement}
    (hfound : table.lookup name = some (.defined s body)) :
    table.Apart (.named name) ↔ ∀ c pos, ⟨.call c, pos⟩ ∈ body →
      (c.operands.map Operand.name).Nodup ∧ table.Apart c.gate := by
  constructor
  · intro h c pos hc
    have hcalls : table.Calls (.named name) c.gate := ⟨name, s, body, c, pos, rfl, hfound, hc, rfl⟩
    exact ⟨h name .refl s body hfound c pos hc, fun inner hreach => h inner (.head hcalls hreach)⟩
  · intro h last hreach s' body' hlast c pos hc
    rcases Relation.ReflTransGen.cases_head hreach with heq | ⟨inner, hcalls, hreach⟩
    · cases heq
      obtain ⟨rfl, rfl⟩ : s = s' ∧ body = body' := by simpa [hfound] using hlast
      exact (h c pos hc).1
    · obtain ⟨_, _, _, first, place, heq, hfirst, hmem, rfl⟩ := hcalls
      cases heq
      obtain ⟨rfl, rfl⟩ : s = _ ∧ body = _ := by simpa [hfound] using hfirst
      exact (h first place hmem).2 last hreach s' body' hlast c pos hc

omit [Scalar R] in
/-- What is found for distinct things is found from distinct things. -/
theorem nodup_of_forall₂ {α β : Type} {find : α → Option β} {xs : List α} {ys : List β}
    (h : List.Forall₂ (fun x y => find x = some y) xs ys) (hd : ys.Nodup) : xs.Nodup := by
  have hmap : xs.map find = ys.map some := by
    rw [← List.forall₂_eq_eq_eq, List.forall₂_map_left_iff, List.forall₂_map_right_iff]
    exact h
  refine List.Nodup.of_map find ?_
  rw [hmap]
  exact hd.map (Option.some_injective _)

omit [Scalar R] in
/-- The local qubits of operands are qubits of the gate, and distinct when the names are. -/
theorem of_localQubits {arguments : List String} {operands : List Operand} {targets : List Nat}
    (h : operands.mapM (localQubit arguments) = .ok targets) :
    (∀ t ∈ targets, t < arguments.length) ∧
      (targets.Nodup ↔ (operands.map Operand.name).Nodup) := by
  have hlocal : List.Forall₂ (fun name t => arguments.findIdx? (· == name) = some t)
      (operands.map Operand.name) targets := by
    rw [List.forall₂_map_left_iff]
    exact (mapM_eq_ok.mp h).imp fun v t hv => (localQubit_eq_ok.mp hv).2
  have hname : ∀ name t, arguments.findIdx? (· == name) = some t → arguments[t]? = some name := by
    intro name t ht
    obtain ⟨hlt, hname, -⟩ := List.findIdx?_eq_some_iff_getElem.mp ht
    rw [List.getElem?_eq_getElem hlt, beq_iff_eq.mp hname]
  -- a name finds its qubit, and the qubit gives the name back
  have hback : List.Forall₂ (fun t name => arguments[t]? = some name) targets
      (operands.map Operand.name) := (hlocal.imp hname).flip
  refine ⟨forall_right_of_forall₂ (fun name t ht => ?_) hlocal, nodup_of_forall₂ hlocal,
    nodup_of_forall₂ hback⟩
  exact (List.getElem?_eq_some_iff.mp (hname name t ht)).1

/-- The circuit of a body is spread when its calls name distinct operands and their gates are. -/
theorem spread_of_instantiateBody_iff
    {instantiateCall : GateName → List R → Except RunError (Gate (Amplitude R))}
    {arguments : List String} {bindings : Bindings R} {good : GateName → Prop} :
    ∀ {body : List BodyStatement} {circuit : Circuit (Amplitude R)},
      instantiateBody instantiateCall arguments bindings body = .ok circuit →
      (∀ c pos, ⟨.call c, pos⟩ ∈ body → ∀ parameters gate,
        instantiateCall c.gate parameters = .ok gate → (gate.Spread ↔ good c.gate)) →
      (circuit.Spread arguments.length ↔ ∀ c pos, ⟨.call c, pos⟩ ∈ body →
        (c.operands.map Operand.name).Nodup ∧ good c.gate)
  | [], _, h, _ => by
    cases h
    rw [Circuit.Spread]
    exact iff_of_true trivial fun _ _ hc => absurd hc List.not_mem_nil
  | ⟨.barrier operands, place⟩ :: rest, circuit, h, hgood => by
    rw [instantiateBody] at h
    rw [spread_of_instantiateBody_iff h fun c pos hc => hgood c pos (List.mem_cons_of_mem _ hc)]
    simp
  | ⟨.call first, place⟩ :: rest, _, h, hgood => by
    obtain ⟨parameters, targets, gate, after, -, ht, hg, hrest, rfl⟩ :=
      instantiateBody_call_eq_ok.mp h
    obtain ⟨hlt, hnodup⟩ := of_localQubits ht
    rw [Circuit.Spread, hgood first place List.mem_cons_self parameters gate hg, hnodup,
      spread_of_instantiateBody_iff hrest fun c pos hc => hgood c pos (List.mem_cons_of_mem _ hc)]
    constructor
    · rintro ⟨hfirst, hnames, -, hafter⟩ c pos hc
      rcases List.mem_cons.mp hc with heq | hc
      · cases heq
        exact ⟨hnames, hfirst⟩
      · exact hafter c pos hc
    · intro hall
      obtain ⟨hnames, hfirst⟩ := hall first place List.mem_cons_self
      exact ⟨hfirst, hnames, hlt, fun c pos hc => hall c pos (List.mem_cons_of_mem _ hc)⟩

/-- **An instantiated gate is spread** when the calls that it was made from name distinct operands,
and only then. -/
theorem spread_iff {active : List String} {gate : GateName} {parameters : List R}
    {instantiated : Gate (Amplitude R)}
    (h : table.instantiateWithin active gate parameters = .ok instantiated) :
    instantiated.Spread ↔ table.Apart gate := by
  cases gate with
  | rotation =>
    obtain ⟨theta, phi, lambda, -, rfl⟩ := instantiateWithin_rotation_eq_ok.mp h
    rw [Gate.rotation, Gate.Spread]
    exact iff_of_true trivial (apart_of_primitive (Or.inl rfl))
  | controlledNot =>
    rw [instantiateWithin_controlledNot] at h
    cases h
    rw [Gate.controlledNot, Gate.Spread]
    exact iff_of_true trivial (apart_of_primitive (Or.inr rfl))
  | named name =>
    obtain ⟨s, body, circuit, hfound, hnew, hlength, hbody, rfl⟩ :=
      instantiateWithin_named_eq_ok.mp h
    -- the gates that the body calls are instantiated under one more active name
    have hpending := pending_cons_lt (mem_names hfound) hnew
    rw [Gate.Spread, apart_named_iff hfound]
    exact spread_of_instantiateBody_iff hbody fun c pos hc passed inner hinner => spread_iff hinner
termination_by pending table.names active

/-! ## The circuits inside an instantiated gate -/

/-- A gate leads to one that is defined with this number of arguments. -/
def LeadsToArity (table : GateTable) (gate : GateName) (count : Nat) : Prop :=
  ∃ name s body, Relation.ReflTransGen table.Calls gate (.named name) ∧
    table.lookup name = some (.defined s body) ∧ s.arguments.length = count

/-- What the circuits in the gates of a body are, those of the body's circuit are. -/
theorem forall_mem_widths_of_instantiateBody
    {instantiateCall : GateName → List R → Except RunError (Gate (Amplitude R))}
    {arguments : List String} {bindings : Bindings R} {good : Nat → Prop} :
    ∀ {body : List BodyStatement} {circuit : Circuit (Amplitude R)},
      instantiateBody instantiateCall arguments bindings body = .ok circuit →
      (∀ c pos, ⟨.call c, pos⟩ ∈ body → ∀ parameters gate,
        instantiateCall c.gate parameters = .ok gate → ∀ q ∈ gate.widths, good q) →
      ∀ q ∈ circuit.widths, good q
  | [], _, h, _ => by
    cases h
    rw [Circuit.widths]
    exact fun _ hq => absurd hq List.not_mem_nil
  | ⟨.barrier operands, place⟩ :: rest, circuit, h, hgood => by
    rw [instantiateBody] at h
    exact forall_mem_widths_of_instantiateBody h fun c pos hc =>
      hgood c pos (List.mem_cons_of_mem _ hc)
  | ⟨.call first, place⟩ :: rest, _, h, hgood => by
    obtain ⟨parameters, targets, gate, after, -, -, hg, hrest, rfl⟩ :=
      instantiateBody_call_eq_ok.mp h
    rw [Circuit.widths]
    refine List.forall_mem_append.mpr
      ⟨hgood first place List.mem_cons_self parameters gate hg, ?_⟩
    exact forall_mem_widths_of_instantiateBody hrest fun c pos hc =>
      hgood c pos (List.mem_cons_of_mem _ hc)

/-- **A circuit inside an instantiated gate** is as wide as a gate that it leads to has
arguments. -/
theorem leadsToArity_of_mem_widths {active : List String} {gate : GateName} {parameters : List R}
    {instantiated : Gate (Amplitude R)}
    (h : table.instantiateWithin active gate parameters = .ok instantiated) :
    ∀ q ∈ instantiated.widths, table.LeadsToArity gate q := by
  cases gate with
  | rotation =>
    obtain ⟨theta, phi, lambda, -, rfl⟩ := instantiateWithin_rotation_eq_ok.mp h
    rw [Gate.rotation, Gate.widths]
    exact fun _ hq => absurd hq List.not_mem_nil
  | controlledNot =>
    rw [instantiateWithin_controlledNot] at h
    cases h
    rw [Gate.controlledNot, Gate.widths]
    exact fun _ hq => absurd hq List.not_mem_nil
  | named name =>
    obtain ⟨s, body, circuit, hfound, hnew, hlength, hbody, rfl⟩ :=
      instantiateWithin_named_eq_ok.mp h
    have hpending := pending_cons_lt (mem_names hfound) hnew
    rw [Gate.widths]
    refine List.forall_mem_cons.mpr ⟨⟨name, s, body, .refl, hfound, rfl⟩, ?_⟩
    refine forall_mem_widths_of_instantiateBody hbody fun c pos hc passed inner hinner q hq => ?_
    obtain ⟨last, s', body', hreach, hlast, hcount⟩ := leadsToArity_of_mem_widths hinner q hq
    have hcalls : table.Calls (.named name) c.gate := ⟨name, s, body, c, pos, rfl, hfound, hc, rfl⟩
    exact ⟨last, s', body', .head hcalls hreach, hlast, hcount⟩
termination_by pending table.names active

/-- The error of a circuit that is too wide for an address space, inside a gate that is applied to
some of `qubits` qubits. The circuit is no wider than that if the gate is apart. -/
def Exceeds (table : GateTable) (gate : GateName) (qubits : Nat) (e : AlgebraError) : Prop :=
  ∃ q, e = .unaddressable q ∧ SquareMatrix.maxQubits < q ∧ table.LeadsToArity gate q ∧
    (table.Apart gate → q ≤ qubits)

/-- What an instantiated gate fails with when one of its circuits is too wide. -/
theorem exceeds_of_widths {active : List String} {gate : GateName} {parameters : List R}
    {instantiated : Gate (Amplitude R)}
    (h : table.instantiateWithin active gate parameters = .ok instantiated) {k qubits : Nat}
    (hfits : instantiated.Fits k) (hk : k ≤ qubits) {e : AlgebraError}
    (he : e.Exceeds instantiated.widths) : table.Exceeds gate qubits e := by
  obtain ⟨q, hq, hwide, rfl⟩ := he
  refine ⟨q, rfl, hwide, leadsToArity_of_mem_widths h q hq, fun hapart => ?_⟩
  exact instantiated.widths_le hfits ((spread_iff h).mpr hapart) hk q hq

end GateTable

end OpenQasm
