import Mathlib.Data.List.Dedup
import OpenQasm.Proofs.Success

/-!
# How gate expansion ends

A gate table is any list of declarations: a body may call gates that are declared later, again, as
opaque, or not at all, and gates that lead back to the one whose body it is. An expansion ends
because a gate that is being expanded cannot be entered again, and the names that are, the active
ones, are taken off when their body is finished: a gate may be reached on several ways, but on none
of them twice.

* `depthWithin_lt`, `exists_makes`: a call that is made is nested one deeper, and the depth of an
  expansion is that of its deepest call.
* `depthWithin_le`: calls are nested by no more than the names that are not active.
* `instantiated_of_reaches`, `not_cycle_of_instantiated`: what is reached from a gate that is
  instantiated is instantiated on the way, so that no cycle can lead back to it.
* `blames_instantiateWithin`: what an expansion that fails says of the gate that it blames.
* **`expansion_detects_recursion`**: the three together.
-/

namespace OpenQasm

variable {R : Type} [Scalar R]

/-! ## How deep calls are nested -/

namespace GateTable

/-- How deeply the calls are nested that are made for a body, where `depthCall` answers it for one
of them. A call is made when its parameters and operands have been found, and the next statement is
come to when the call has succeeded. -/
def depthBody (instantiateCall : GateName → List R → Except RunError (Gate (Amplitude R)))
    (depthCall : GateName → List R → Nat) (arguments : List String) (bindings : Bindings R) :
    List BodyStatement → Nat
  | [] => 0
  | ⟨.barrier _, _⟩ :: rest => depthBody instantiateCall depthCall arguments bindings rest
  | ⟨.call c, _⟩ :: rest =>
    match values bindings c.passed, c.operands.mapM (localQubit arguments) with
    | .ok parameters, .ok _ =>
      max (depthCall c.gate parameters) <|
        match instantiateCall c.gate parameters with
        | .ok _ => depthBody instantiateCall depthCall arguments bindings rest
        | .error _ => 0
    | _, _ => 0

/-- How deeply the calls are nested that are made to instantiate a gate, the first one included,
while `active` gates are being instantiated. -/
def depthWithin (table : GateTable) (active : List String) (gate : GateName)
    (parameters : List R) : Nat :=
  match gate with
  | .rotation | .controlledNot => 1
  | .named name =>
    match hfound : table.lookup name with
    | none | some .sealed => 1
    | some (.defined signature body) =>
      if hnew : name ∈ active then 1
      else if signature.formals.length ≠ parameters.length then 1
      else
        have := pending_cons_lt (mem_names hfound) hnew
        depthBody (table.instantiateWithin (name :: active))
          (fun inner passed => depthWithin table (name :: active) inner passed)
          signature.arguments (.ofLists signature.formals parameters) body + 1
termination_by pending table.names active

/-- How deeply the calls are nested that are made to instantiate a gate. -/
def depth (table : GateTable) (gate : GateName) (parameters : List R) : Nat :=
  table.depthWithin [] gate parameters

/-- The number of names that a table has an entry for. -/
def entries (table : GateTable) : Nat := table.names.dedup.length

variable {table : GateTable}

/-! ### The calls that are made -/

/-- The calls in a body that are made: those before it have succeeded, and its own parameters and
operands have been found. -/
def MakesCall (instantiateCall : GateName → List R → Except RunError (Gate (Amplitude R)))
    (arguments : List String) (bindings : Bindings R) (body : List BodyStatement)
    (inner : GateName) (passed : List R) : Prop :=
  ∃ before c pos after circuit targets, body = before ++ ⟨.call c, pos⟩ :: after ∧
    inner = c.gate ∧ instantiateBody instantiateCall arguments bindings before = .ok circuit ∧
    values bindings c.passed = .ok passed ∧ c.operands.mapM (localQubit arguments) = .ok targets

section Body

variable {instantiateCall : GateName → List R → Except RunError (Gate (Amplitude R))}
  {depthCall : GateName → List R → Nat} {arguments : List String} {bindings : Bindings R}

theorem le_depthBody {body : List BodyStatement} {inner : GateName} {passed : List R}
    (h : MakesCall instantiateCall arguments bindings body inner passed) :
    depthCall inner passed ≤ depthBody instantiateCall depthCall arguments bindings body := by
  obtain ⟨before, c, pos, after, circuit, targets, rfl, rfl, hbefore, hpassed, htargets⟩ := h
  induction before generalizing circuit with
  | nil =>
    rw [List.nil_append, depthBody, hpassed, htargets]
    exact Nat.le_max_left _ _
  | cons statement before ih =>
    obtain ⟨action, pos'⟩ := statement
    cases action with
    | barrier operands => exact ih circuit hbefore
    | call first =>
      obtain ⟨_, _, gate, rest, hfirst, hoperands, hgate, hrest, -⟩ :=
        instantiateBody_call_eq_ok.mp hbefore
      rw [List.cons_append, depthBody, hfirst, hoperands]
      dsimp only
      rw [hgate]
      exact (ih rest hrest).trans (Nat.le_max_right _ _)

/-- A call is made behind a statement that is a barrier. -/
theorem MakesCall.behind_barrier {operands : List Operand} {pos : SourcePos}
    {body : List BodyStatement} {inner : GateName} {passed : List R}
    (h : MakesCall instantiateCall arguments bindings body inner passed) :
    MakesCall instantiateCall arguments bindings (⟨.barrier operands, pos⟩ :: body) inner
      passed := by
  obtain ⟨before, c, pos', after, circuit, targets, rfl, hmade⟩ := h
  exact ⟨⟨.barrier operands, pos⟩ :: before, c, pos', after, circuit, targets, rfl, hmade⟩

/-- A call is made behind one that succeeds. -/
theorem MakesCall.behind_call {first : GateCall} {pos : SourcePos} {given : List R}
    {targets : List Nat} {gate : Gate (Amplitude R)} {body : List BodyStatement}
    {inner : GateName} {passed : List R}
    (h : MakesCall instantiateCall arguments bindings body inner passed)
    (hgiven : values bindings first.passed = .ok given)
    (htargets : first.operands.mapM (localQubit arguments) = .ok targets)
    (hgate : instantiateCall first.gate given = .ok gate) :
    MakesCall instantiateCall arguments bindings (⟨.call first, pos⟩ :: body) inner passed := by
  obtain ⟨before, c, pos', after, circuit, targets', rfl, rfl, hbefore, hmade⟩ := h
  have hfirst : instantiateBody instantiateCall arguments bindings
      (⟨.call first, pos⟩ :: before) = .ok (.step gate targets circuit) :=
    instantiateBody_call_eq_ok.mpr
      ⟨given, targets, gate, circuit, hgiven, htargets, hgate, hbefore, rfl⟩
  exact ⟨⟨.call first, pos⟩ :: before, c, pos', after, _, targets', rfl, rfl, hfirst, hmade⟩

/-- The depth of a body is that of a call which is made, if one is. -/
theorem exists_depthBody (body : List BodyStatement) :
    depthBody instantiateCall depthCall arguments bindings body = 0 ∨
      ∃ inner passed, MakesCall instantiateCall arguments bindings body inner passed ∧
        depthBody instantiateCall depthCall arguments bindings body = depthCall inner passed := by
  induction body with
  | nil => exact .inl rfl
  | cons statement body ih =>
    obtain ⟨action, pos⟩ := statement
    cases action with
    | barrier operands =>
      exact ih.imp_right fun ⟨inner, passed, hmakes, hdepth⟩ =>
        ⟨inner, passed, hmakes.behind_barrier, hdepth⟩
    | call first =>
      rw [depthBody]
      split
      · rename_i given targets hgiven htargets
        have hfirst : MakesCall instantiateCall arguments bindings (⟨.call first, pos⟩ :: body)
            first.gate given :=
          ⟨[], first, pos, body, .done, targets, rfl, rfl, rfl, hgiven, htargets⟩
        refine .inr ?_
        split
        · rename_i gate hgate
          rcases ih with hnone | ⟨inner, passed, hmakes, hdepth⟩
          · exact ⟨first.gate, given, hfirst, by rw [hnone, Nat.max_zero]⟩
          -- the deeper one of this call and the deepest behind it
          rcases Nat.le_total (depthCall first.gate given) (depthCall inner passed) with hle | hle
          · exact ⟨inner, passed, hmakes.behind_call hgiven htargets hgate,
              by rw [hdepth, Nat.max_eq_right hle]⟩
          · exact ⟨first.gate, given, hfirst, by rw [hdepth, Nat.max_eq_left hle]⟩
        · exact ⟨first.gate, given, hfirst, Nat.max_zero _⟩
      · exact .inl rfl

end Body

/-- The calls that are made to instantiate a gate, while `name` is one more active gate. -/
def Makes (table : GateTable) (active : List String) (gate : GateName) (parameters : List R)
    (name : String) (inner : GateName) (passed : List R) : Prop :=
  ∃ s body, gate = .named name ∧ table.lookup name = some (.defined s body) ∧ name ∉ active ∧
    s.formals.length = parameters.length ∧
    MakesCall (table.instantiateWithin (name :: active)) s.arguments
      (.ofLists s.formals parameters) body inner passed

theorem depthWithin_named (active : List String) (name : String) (parameters : List R) :
    table.depthWithin active (.named name) parameters =
      match table.lookup name with
      | none | some .sealed => 1
      | some (.defined signature body) =>
        if name ∈ active then 1
        else if signature.formals.length ≠ parameters.length then 1
        else depthBody (table.instantiateWithin (name :: active))
          (table.depthWithin (name :: active)) signature.arguments
          (.ofLists signature.formals parameters) body + 1 := by
  rw [depthWithin]
  split <;> rename_i hfound <;> conv_rhs => rw [hfound]
  simp only [dite_eq_ite]

/-- **A call that is made is nested deeper.** -/
theorem depthWithin_lt {active : List String} {gate inner : GateName} {parameters passed : List R}
    {name : String} (h : table.Makes active gate parameters name inner passed) :
    table.depthWithin (name :: active) inner passed < table.depthWithin active gate parameters := by
  obtain ⟨s, body, rfl, hfound, hnew, hlength, hmakes⟩ := h
  rw [depthWithin_named, hfound]
  dsimp only
  rw [if_neg hnew, if_neg (not_not_intro hlength)]
  exact Nat.lt_succ_of_le (le_depthBody hmakes)

/-- **The depth is that of the deepest call** which is made, and one more. -/
theorem exists_makes (table : GateTable) (active : List String) (gate : GateName)
    (parameters : List R) : table.depthWithin active gate parameters = 1 ∨
      ∃ name inner passed, table.Makes active gate parameters name inner passed ∧
        table.depthWithin active gate parameters =
          table.depthWithin (name :: active) inner passed + 1 := by
  cases gate with
  | rotation => exact .inl (by rw [depthWithin])
  | controlledNot => exact .inl (by rw [depthWithin])
  | named name =>
    rw [depthWithin_named]
    split
    · exact .inl rfl
    · exact .inl rfl
    · rename_i s body hfound
      by_cases hnew : name ∈ active
      · exact .inl (if_pos hnew)
      by_cases hlength : s.formals.length = parameters.length
      · rw [if_neg hnew, if_neg (not_not_intro hlength)]
        refine (exists_depthBody body).imp (congrArg (· + 1)) ?_
        rintro ⟨inner, passed, hmakes, hdepth⟩
        exact ⟨name, inner, passed, ⟨s, body, rfl, hfound, hnew, hlength, hmakes⟩,
          congrArg (· + 1) hdepth⟩
      · exact .inl (by rw [if_neg hnew, if_pos hlength])

/-- **Calls are nested no deeper than there are names to enter**, and one deeper for what cannot be
entered. -/
theorem depthWithin_le (table : GateTable) (active : List String) (gate : GateName)
    (parameters : List R) :
    table.depthWithin active gate parameters ≤ pending table.names.dedup active + 1 := by
  rcases table.exists_makes active gate parameters with hone | ⟨name, inner, passed, hmakes, hdepth⟩
  · rw [hone]
    exact Nat.le_add_left 1 _
  · obtain ⟨s, body, -, hfound, hnew, -⟩ := hmakes
    have hpending := pending_cons_lt (List.mem_dedup.mpr (mem_names hfound)) hnew
    rw [hdepth]
    refine Nat.succ_le_succ (le_trans ?_ (Nat.succ_le_of_lt hpending))
    exact depthWithin_le table (name :: active) inner passed
termination_by pending table.names.dedup active

/-! ## What a success says -/

/-- A gate that is called in the body of one that is instantiated is instantiated, while that one is
active. -/
theorem instantiated_of_calls {active : List String} {gate inner : GateName} {parameters : List R}
    {instantiated : Gate (Amplitude R)}
    (h : table.instantiateWithin active gate parameters = .ok instantiated)
    (hcalls : table.Calls gate inner) :
    ∃ (name : String) (passed : List R) (result : Gate (Amplitude R)), gate = .named name ∧
      table.instantiateWithin (name :: active) inner passed = .ok result := by
  obtain ⟨name, s, body, c, pos, rfl, hfound, hc, rfl⟩ := hcalls
  obtain ⟨s', body', circuit, hfound', -, hlength, hbody, -⟩ := instantiateWithin_named_eq_ok.mp h
  obtain ⟨rfl, rfl⟩ := GateDefinition.defined.inj (Option.some.inj (hfound.symm.trans hfound'))
  obtain ⟨-, passed, result, hinner⟩ := resolves_of_instantiateBody hlength hbody c pos hc
  exact ⟨name, passed, result, rfl, hinner⟩

/-- **What is reached from a gate that is instantiated is instantiated**, while everything that was
active still is. -/
theorem instantiated_of_reaches {active : List String} {gate inner : GateName}
    {parameters : List R} {instantiated : Gate (Amplitude R)}
    (h : table.instantiateWithin active gate parameters = .ok instantiated)
    (hreach : Relation.ReflTransGen table.Calls gate inner) :
    ∃ (others : List String) (passed : List R) (result : Gate (Amplitude R)), active ⊆ others ∧
      table.instantiateWithin others inner passed = .ok result := by
  induction hreach with
  | refl => exact ⟨active, parameters, instantiated, List.Subset.refl _, h⟩
  | tail _ hcalls ih =>
    obtain ⟨others, passed, result, hsub, hresult⟩ := ih
    obtain ⟨name, passed', result', -, hnext⟩ := instantiated_of_calls hresult hcalls
    exact ⟨name :: others, passed', result', List.subset_cons_of_subset _ hsub, hnext⟩

/-- **No cycle leads through a gate that is instantiated**: back at the gate it would be active. -/
theorem not_cycle_of_instantiated {active : List String} {gate : GateName}
    {parameters : List R} {instantiated : Gate (Amplitude R)}
    (h : table.instantiateWithin active gate parameters = .ok instantiated) :
    ¬Relation.TransGen table.Calls gate gate := by
  intro hcycle
  obtain ⟨next, hcalls, hback⟩ := Relation.TransGen.head'_iff.mp hcycle
  obtain ⟨name, passed, result, rfl, hnext⟩ := instantiated_of_calls h hcalls
  obtain ⟨others, passed', result', hsub, hagain⟩ := instantiated_of_reaches hnext hback
  obtain ⟨-, -, -, -, hnew, -⟩ := instantiateWithin_named_eq_ok.mp hagain
  exact hnew (hsub List.mem_cons_self)

end GateTable

/-! ## What a failure says -/

/-- A gate that is blamed for leading to itself is one of those that do. -/
def RunFault.Blames (loops : String → Prop) : RunFault → Prop
  | .recursiveGate name => loops name
  | _ => True

/-- Blaming a position does not change the gate that is blamed. -/
theorem Ends.blames_located {α : Type} {loops : String → Prop} {post : α → Prop}
    {x : Except RunError α} (h : Ends x post (·.fault.Blames loops)) (pos : SourcePos) :
    Ends (x.mapError (RunError.located pos)) post (·.fault.Blames loops) :=
  h.mapError fun _ he => he

/-- An expression blames no gate. -/
theorem blames_evaluate (loops : String → Prop) (bindings : Bindings R) (e : Expr) :
    Ends (e.evaluate bindings) (fun _ => True) (·.fault.Blames loops) := by
  have hfinite (e : Expr) (x : R) :
      Ends (e.finite x) (fun _ => True) (·.fault.Blames loops) := by
    unfold Expr.finite
    split <;> trivial
  induction e with
  | real => exact hfinite ..
  | integer => exact hfinite ..
  | pi => exact hfinite ..
  | operand v =>
    rw [Expr.evaluate]
    cases bindings.lookup v.name with
    | none => trivial
    | some x => exact hfinite ..
  | neg target pos ih =>
    rw [Expr.evaluate]
    exact ih.bind fun _ _ _ => hfinite ..
  | binary op left right ihl ihr =>
    rw [Expr.evaluate]
    exact ihl.bind fun _ _ _ => ihr.bind fun _ _ _ => hfinite ..
  | call function target pos ih =>
    rw [Expr.evaluate]
    exact ih.bind fun _ _ _ => hfinite ..

namespace GateTable

variable {loops : String → Prop}

omit [Scalar R] in
/-- An operand blames no gate. -/
theorem blames_localQubit (loops : String → Prop) (arguments : List String) (v : Operand) :
    Ends (localQubit arguments v) (fun _ => True) (·.fault.Blames loops) := by
  unfold localQubit
  split
  · trivial
  · cases arguments.findIdx? (· == v.name) <;> trivial

/-- A body blames a gate only through one of its calls. -/
theorem blames_instantiateBody
    {instantiateCall : GateName → List R → Except RunError (Gate (Amplitude R))}
    {arguments : List String} {bindings : Bindings R} : ∀ {body : List BodyStatement},
    (∀ c pos, ⟨.call c, pos⟩ ∈ body → ∀ parameters,
      Ends (instantiateCall c.gate parameters) (fun _ => True) (·.fault.Blames loops)) →
    Ends (instantiateBody instantiateCall arguments bindings body) (fun _ => True)
      (·.fault.Blames loops)
  | [], _ => trivial
  | ⟨.barrier _, _⟩ :: _, hcalls => by
    rw [instantiateBody]
    exact blames_instantiateBody fun c pos hc => hcalls c pos (List.mem_cons_of_mem _ hc)
  | ⟨.call c, pos⟩ :: rest, hcalls => by
    have hvalues : Ends (values bindings c.passed) (List.Forall₂ (fun _ _ => True) c.passed)
        (·.fault.Blames loops) := Ends.mapM fun e _ => blames_evaluate loops bindings e
    have htargets : Ends (c.operands.mapM (localQubit arguments))
        (List.Forall₂ (fun _ _ => True) c.operands) (·.fault.Blames loops) :=
      Ends.mapM fun v _ => blames_localQubit loops arguments v
    have hgate := hcalls c pos List.mem_cons_self
    have hrest : Ends (instantiateBody instantiateCall arguments bindings rest) (fun _ => True)
        (·.fault.Blames loops) :=
      blames_instantiateBody fun c pos hc => hcalls c pos (List.mem_cons_of_mem _ hc)
    rw [instantiateBody]
    refine (hvalues.blames_located pos).bind fun parameters _ _ => ?_
    refine htargets.bind fun targets _ _ => ?_
    refine ((hgate parameters).blames_located pos).bind fun gate _ _ => ?_
    exact hrest.bind fun _ _ _ => trivial

/-- **A gate that is blamed for leading to itself does**, and is reached from the gate that is
expanded first, as long as that one leads to the current gate, and so does every active one. -/
theorem blames_instantiateWithin (table : GateTable) {first : GateName} (active : List String)
    (gate : GateName) (parameters : List R)
    (hfirst : Relation.ReflTransGen table.Calls first gate)
    (hactive : ∀ name ∈ active, Relation.TransGen table.Calls (.named name) gate) :
    Ends (table.instantiateWithin active gate parameters) (fun _ => True) (·.fault.Blames
      fun name => Relation.ReflTransGen table.Calls first (.named name) ∧
        Relation.TransGen table.Calls (.named name) (.named name)) := by
  cases gate with
  | rotation =>
    unfold instantiateWithin
    split <;> trivial
  | controlledNot =>
    rw [instantiateWithin_controlledNot]
    trivial
  | named name =>
    rw [instantiateWithin_named]
    split
    · trivial
    · trivial
    · rename_i s body hfound
      split
      · rename_i hagain
        exact ⟨hfirst, hactive name hagain⟩
      · rename_i hnew
        split
        · trivial
        · have hpending := pending_cons_lt (mem_names hfound) hnew
          refine Ends.map (blames_instantiateBody fun c pos hc passed => ?_) fun _ _ => trivial
          have hcalls : table.Calls (.named name) c.gate :=
            ⟨name, s, body, c, pos, rfl, hfound, hc, rfl⟩
          exact blames_instantiateWithin table (name :: active) c.gate passed
            (hfirst.tail hcalls) (List.forall_mem_cons.mpr
              ⟨.single hcalls, fun other hother => (hactive other hother).tail hcalls⟩)
termination_by pending table.names active

/-! ## Expanding a gate -/

/-- **Expansion ends, and detects recursion.** Whatever the table declares, the calls that are made
to instantiate a gate are nested by at most one more than the table has entries. When a gate is
instantiated, every gate that it leads to through the calls of bodies is built in or defined, and
none of them leads to itself. When it is not, and a gate is blamed for leading to itself, then it is
reached and it does. So a gate that leads to itself, at once or through others, is never
instantiated, and neither is one that leads to it. -/
theorem expansion_detects_recursion (table : GateTable) (gate : GateName) (parameters : List R) :
    table.depth gate parameters ≤ table.entries + 1 ∧
    (∀ instantiated, table.instantiate gate parameters = .ok instantiated →
      (∀ name, Relation.ReflTransGen table.Calls gate (.named name) →
        ∃ s body, table.lookup name = some (.defined s body)) ∧
      ∀ inner, Relation.ReflTransGen table.Calls gate inner →
        ¬Relation.TransGen table.Calls inner inner) ∧
    (∀ e name, table.instantiate gate parameters = .error e → e.fault = .recursiveGate name →
      Relation.ReflTransGen table.Calls gate (.named name) ∧
        Relation.TransGen table.Calls (.named name) (.named name)) ∧
    ∀ inner, Relation.ReflTransGen table.Calls gate inner →
      Relation.TransGen table.Calls inner inner →
      ∃ e, table.instantiate gate parameters = .error e := by
  have hacyclic : ∀ instantiated, table.instantiate gate parameters = .ok instantiated →
      ∀ inner, Relation.ReflTransGen table.Calls gate inner →
        ¬Relation.TransGen table.Calls inner inner := fun instantiated h inner hreach => by
    obtain ⟨others, passed, result, -, hinner⟩ := instantiated_of_reaches h hreach
    exact not_cycle_of_instantiated hinner
  refine ⟨?_, fun instantiated h => ⟨fun name hreach => ?_, hacyclic instantiated h⟩,
    fun e name h he => ?_, fun inner hreach hcycle => ?_⟩
  · have hnone : pending table.names.dedup [] = table.entries :=
      List.countP_eq_length.mpr fun _ _ => decide_eq_true List.not_mem_nil
    exact hnone ▸ depthWithin_le table [] gate parameters
  · obtain ⟨others, passed, result, -, hinner⟩ := instantiated_of_reaches h hreach
    obtain ⟨s, body, -, hfound, -⟩ := instantiateWithin_named_eq_ok.mp hinner
    exact ⟨s, body, hfound⟩
  · have hblames := (blames_instantiateWithin table [] gate parameters .refl
      fun _ hname => absurd hname List.not_mem_nil).error_of_eq h
    rwa [he] at hblames
  · cases h : table.instantiate gate parameters with
    | error e => exact ⟨e, rfl⟩
    | ok instantiated => exact absurd hcycle (hacyclic instantiated h inner hreach)

/-- A gate that calls one of two gates that call each other. -/
theorem expansion_detects_recursion_mutual :
    let calling (name inner : String) : String × GateDefinition :=
      (name, .defined ⟨name, none, ["q"]⟩
        [⟨.call ⟨.named inner, none, [⟨"q", none, default⟩]⟩, default⟩])
    let table : GateTable := [calling "a" "b", calling "b" "c", calling "c" "b"]
    table.depth (.named "a") ([] : List Float) ≤ 4 ∧
      ∃ e, table.instantiate (.named "a") ([] : List Float) = .error e := by
  intro calling table
  have hcalls {name inner : String} (h : table.lookup name = some (calling name inner).2) :
      table.Calls (.named name) (.named inner) :=
    ⟨name, _, _, _, _, rfl, h, List.mem_singleton_self _, rfl⟩
  obtain ⟨hdepth, -, -, hcycle⟩ :=
    expansion_detects_recursion table (.named "a") ([] : List Float)
  have hforth : table.Calls (.named "b") (.named "c") := hcalls rfl
  have hback : table.Calls (.named "c") (.named "b") := hcalls rfl
  exact ⟨hdepth, hcycle (.named "b") (.single (hcalls rfl)) (.tail (.single hforth) hback)⟩

end GateTable

end OpenQasm
