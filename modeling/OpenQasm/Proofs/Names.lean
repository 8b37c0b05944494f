import Mathlib.Logic.Relation
import OpenQasm.Proofs.Accepted
import OpenQasm.Proofs.Instantiation
import OpenQasm.Proofs.Remaining

/-!
# Names in expressions and in the bodies of gates

When the names that a gate uses can be resolved at run time. An expression looks its operands up
among the parameters that have values, whatever their index. An operand in the body of a gate must
be a formal argument without an index. A gate leads on to those that its body calls
(`GateTable.Calls`), and all that it leads to must be declared, with bodies whose names can be
resolved (`GateTable.Resolves`).

* `ends_evaluate`: the value of an expression.
* `ends_instantiateWithin`: **a gate that is called as it is declared** instantiates to one whose
  sizes fit, or has one of the faults that remain.
-/

namespace OpenQasm

/-- The operands of an expression. -/
def Expr.variables : Expr → List Operand
  | .real .. | .integer .. | .pi _ => []
  | .operand v => [v]
  | .neg target _ => target.variables
  | .binary _ left right => left.variables ++ right.variables
  | .call _ target _ => target.variables

/-- Every operand of an expression is one of these parameters. -/
def Expr.Within (parameters : List String) (e : Expr) : Prop :=
  ∀ v ∈ e.variables, v.name ∈ parameters

/-- The names of a call in the body of a gate can be resolved. -/
def GateCall.Resolves (c : GateCall) (s : Signature) : Prop :=
  (∀ v ∈ c.operands, v.isIndexed = false ∧ v.name ∈ s.arguments) ∧
    ∀ e ∈ c.passed, e.Within s.formals

/-- The names in the body of a gate can be resolved. -/
def GateDefinition.Resolves : GateDefinition → Prop
  | .sealed => True
  | .defined s body => ∀ c pos, ⟨.call c, pos⟩ ∈ body → c.Resolves s

namespace GateTable

/-- The body of a gate calls another. -/
def Calls (table : GateTable) (gate inner : GateName) : Prop :=
  ∃ name s body c pos, gate = .named name ∧ table.lookup name = some (.defined s body) ∧
    ⟨.call c, pos⟩ ∈ body ∧ inner = c.gate

/-- A gate is built in, or declared with a body whose names can be resolved. -/
def Known (table : GateTable) : GateName → Prop
  | .rotation | .controlledNot => True
  | .named name => ∃ definition, table.lookup name = some definition ∧ definition.Resolves

/-- All names that a gate leads to can be resolved. -/
def Resolves (table : GateTable) (gate : GateName) : Prop :=
  ∀ inner, Relation.ReflTransGen table.Calls gate inner → table.Known inner

/-- The defined gates are as an environment says, and their bodies are legal there. -/
def Agrees (table : GateTable) (env : Env) : Prop :=
  ∀ name s body, table.lookup name = some (.defined s body) →
    env name = some (.gate s.formals.length s.arguments.length) ∧
      ∀ b ∈ body, (s.env env).LegalBody b.action

theorem Resolves.known {table : GateTable} {gate : GateName} (h : table.Resolves gate) :
    table.Known gate := h gate .refl

theorem Resolves.of_calls {table : GateTable} {gate inner : GateName} (h : table.Resolves gate)
    (hc : table.Calls gate inner) : table.Resolves inner :=
  fun last hlast => h last (.head hc hlast)

end GateTable

/-! ## Expressions -/

variable {R : Type} [Scalar R] {named : Prop} {beyond : RunFault → Prop} {bindings : Bindings R}

omit [Scalar R] in
/-- The parameters that have values. -/
theorem Bindings.lookup_ofLists {names : List String} {values : List R}
    (h : names.length = values.length) (name : String) :
    ((Bindings.ofLists names values).lookup name).isSome = true ↔ name ∈ names := by
  have hmap : names = (Bindings.ofLists names values).reverse.map Prod.fst := by
    rw [Bindings.ofLists, List.reverse_reverse, List.map_fst_zip (Nat.le_of_eq h)]
  conv_rhs => rw [hmap]
  simp only [List.lookup_isSome_iff, beq_iff_eq, List.mem_map, List.mem_reverse]
  exact exists_congr fun _ => and_congr_right fun _ => eq_comm

/-- A value that must be finite. -/
theorem ends_finite (e : Expr) (x : R) :
    Ends (e.finite x) (fun _ => True) (·.fault.Remains named beyond) := by
  unfold Expr.finite
  split
  · trivial
  · trivial

/-- Evaluating an expression fails for a value that is not finite, or for an operand that has no
value. -/
theorem ends_evaluate : ∀ {e : Expr},
    (named → ∀ v ∈ e.variables, (bindings.lookup v.name).isSome = true) →
    Ends (e.evaluate bindings) (fun _ => True) (·.fault.Remains named beyond)
  | .real .., _ => ends_finite ..
  | .integer .., _ => ends_finite ..
  | .pi _, _ => ends_finite ..
  | .operand v, h => by
    rw [Expr.evaluate]
    cases hl : bindings.lookup v.name with
    | some x => exact ends_finite ..
    | none =>
      intro hnamed
      have := h hnamed v (List.mem_singleton_self v)
      rw [hl] at this
      cases this
  | .neg target pos, h => by
    rw [Expr.evaluate]
    exact (ends_evaluate (e := target) h).bind fun _ _ _ => ends_finite ..
  | .binary op left right, h => by
    rw [Expr.evaluate]
    refine (ends_evaluate (e := left) fun hn v hv => h hn v ?_).bind fun _ _ _ => ?_
    · exact List.mem_append_left _ hv
    refine (ends_evaluate (e := right) fun hn v hv => h hn v ?_).bind fun _ _ _ => ends_finite ..
    exact List.mem_append_right _ hv
  | .call function target pos, h => by
    rw [Expr.evaluate]
    exact (ends_evaluate (e := target) h).bind fun _ _ _ => ends_finite ..

namespace GateTable

/-- The values of parameters, one for each. -/
theorem ends_values {parameters : List Expr}
    (h : named → ∀ e ∈ parameters, ∀ v ∈ e.variables, (bindings.lookup v.name).isSome = true) :
    Ends (values bindings parameters) (·.length = parameters.length)
      (·.fault.Remains named beyond) := by
  unfold values
  refine (Ends.mapM fun e he => ends_evaluate fun hn v hv => h hn e he v hv).mono ?_ fun _ => id
  exact fun _ hvalues => hvalues.length_eq.symm

/-! ## Bodies -/

omit [Scalar R] in
theorem ends_localQubit {arguments : List String} {v : Operand}
    (h : named → v.isIndexed = false ∧ v.name ∈ arguments) :
    Ends (localQubit arguments v) (fun _ => True) (·.fault.Remains named beyond) := by
  unfold localQubit
  split
  · rename_i hi
    intro hn
    rw [(h hn).1] at hi
    cases hi
  · cases hf : arguments.findIdx? (· == v.name) with
    | some j => trivial
    | none =>
      intro hn
      have := List.findIdx?_eq_none_iff.mp hf v.name (h hn).2
      simp at this

/-- The circuit of a body, whose calls instantiate to gates that fit their operands. -/
theorem ends_instantiateBody
    {instantiateCall : GateName → List R → Except RunError (Gate (Amplitude R))} {s : Signature}
    {values : List R} (hvalues : s.formals.length = values.length) :
    ∀ {body : List BodyStatement},
      (∀ c pos, ⟨.call c, pos⟩ ∈ body → ∀ parameters : List R,
        parameters.length = c.passed.length →
        Ends (instantiateCall c.gate parameters) (·.Fits c.operands.length)
          (·.fault.Remains named beyond)) →
      (named → ∀ c pos, ⟨.call c, pos⟩ ∈ body → c.Resolves s) →
      Ends (instantiateBody instantiateCall s.arguments (.ofLists s.formals values) body)
        Circuit.Fits (·.fault.Remains named beyond)
  | [], _, _ => by
    rw [instantiateBody]
    trivial
  | ⟨.barrier _, _⟩ :: rest, hcalls, hnamed => by
    rw [instantiateBody]
    exact ends_instantiateBody hvalues
      (fun c pos hc => hcalls c pos (List.mem_cons_of_mem _ hc))
      fun hn c pos hc => hnamed hn c pos (List.mem_cons_of_mem _ hc)
  | ⟨.call c, pos⟩ :: rest, hcalls, hnamed => by
    have hbound : named → ∀ e ∈ c.passed, ∀ v ∈ e.variables,
        ((Bindings.ofLists s.formals values).lookup v.name).isSome = true := by
      intro hn e he v hv
      rw [Bindings.lookup_ofLists hvalues]
      exact (hnamed hn c pos List.mem_cons_self).2 e he v hv
    have htargets : Ends (c.operands.mapM (localQubit s.arguments))
        (List.Forall₂ (fun _ _ => True) c.operands) (·.fault.Remains named beyond) :=
      Ends.mapM fun v hv => ends_localQubit fun hn => (hnamed hn c pos List.mem_cons_self).1 v hv
    have hrest := ends_instantiateBody hvalues
      (fun c pos hc => hcalls c pos (List.mem_cons_of_mem _ hc))
      fun hn c pos hc => hnamed hn c pos (List.mem_cons_of_mem _ hc)
    rw [instantiateBody]
    refine ((ends_values hbound).located pos).bind fun parameters _ hlength => ?_
    refine htargets.bind fun targets _ hrelated => ?_
    have hgate := hcalls c pos List.mem_cons_self parameters hlength
    refine (hgate.located pos).bind fun gate _ hfits => ?_
    refine hrest.bind fun circuit _ hcircuit => ?_
    show Circuit.Fits (.step gate targets circuit)
    rw [Circuit.Fits, ← hrelated.length_eq]
    exact ⟨hfits, hcircuit⟩

/-- A gate's formals hide no gate: what a call inside its body takes, it takes around it. -/
theorem takes_of_env {s : Signature} {env : Env} {gate : GateName} {parameters arguments : Nat}
    (h : (s.env env).Takes gate parameters arguments) : env.Takes gate parameters arguments := by
  cases gate with
  | rotation => exact h
  | controlledNot => exact h
  | named name =>
    have hor : (s.locals.lookup name).or (env name) = some (.gate parameters arguments) := h
    rcases Option.or_eq_some_iff.mp hor with hlocal | ⟨-, hglobal⟩
    · obtain ⟨before, after, hmem, -⟩ := List.lookup_eq_some_iff.mp hlocal
      have hlocals : (name, SymbolKind.gate parameters arguments) ∈ s.locals := by
        rw [hmem]
        exact List.mem_append_right _ List.mem_cons_self
      rw [Signature.locals, List.mem_append, List.mem_map, List.mem_map] at hlocals
      rcases hlocals with ⟨p, -, hp⟩ | ⟨p, -, hp⟩
      · cases (Prod.mk.inj hp).2
      · cases (Prod.mk.inj hp).2
    · exact hglobal

/-- **A gate that is called as it is declared** instantiates to one whose sizes fit, or has one of
the faults that remain. -/
theorem ends_instantiateWithin {table : GateTable} {env : Env} (hagrees : table.Agrees env)
    {active : List String} {gate : GateName} {parameters : List R} {k : Nat}
    (htakes : env.Takes gate parameters.length k) (hnamed : named → table.Resolves gate) :
    Ends (table.instantiateWithin active gate parameters) (·.Fits k)
      (·.fault.Remains named beyond) := by
  cases gate with
  | rotation =>
    obtain ⟨hlength, rfl⟩ := htakes
    obtain ⟨theta, phi, lambda, rfl⟩ := List.length_eq_three.mp hlength
    rw [instantiateWithin]
    exact Gate.fits_rotation theta phi lambda
  | controlledNot =>
    obtain ⟨-, rfl⟩ := htakes
    rw [instantiateWithin_controlledNot]
    exact Gate.fits_controlledNot
  | named name =>
    rw [instantiateWithin_named]
    split
    · intro hn
      rename_i hnone
      obtain ⟨definition, hfound, -⟩ := (hnamed hn).known
      rw [hnone] at hfound
      cases hfound
    · trivial
    · rename_i s body hfound
      obtain ⟨henv, hlegal⟩ := hagrees name s body hfound
      have hcounts : SymbolKind.gate parameters.length k =
          .gate s.formals.length s.arguments.length :=
        Option.some.inj (htakes.symm.trans henv)
      obtain ⟨hformals, rfl⟩ := SymbolKind.gate.inj hcounts
      split
      · trivial
      · rename_i hnew
        rw [if_neg (not_ne_iff.mpr hformals.symm)]
        have hpending := pending_cons_lt (mem_names hfound) hnew
        have hbody : Ends (instantiateBody (table.instantiateWithin (name :: active)) s.arguments
            (.ofLists s.formals parameters) body) Circuit.Fits (·.fault.Remains named beyond) := by
          refine ends_instantiateBody hformals.symm (fun c pos hc values hlength => ?_)
            fun hn c pos hc => ?_
          · have hcall : (s.env env).LegalCall c := hlegal _ hc
            -- legal among the formals, so taken by the gate that the name stands for outside
            refine ends_instantiateWithin hagrees ?_ fun hn =>
              (hnamed hn).of_calls ⟨name, s, body, c, pos, rfl, hfound, hc, rfl⟩
            rw [hlength]
            exact takes_of_env hcall.1
          · obtain ⟨definition, hd, hresolves⟩ := (hnamed hn).known
            rw [hfound] at hd
            cases hd
            exact hresolves c pos hc
        refine hbody.map fun circuit hcircuit => ?_
        rw [Gate.Fits]
        exact ⟨rfl, hcircuit⟩
termination_by pending table.names active

end GateTable

end OpenQasm
