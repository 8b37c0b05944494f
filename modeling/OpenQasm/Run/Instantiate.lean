import OpenQasm.Expansion
import OpenQasm.Quantum.Gate
import OpenQasm.Run.Evaluate

/-!
# Instantiating gates

A gate table holds the gates that have been declared. `GateTable.instantiate` builds the gate of a
name for given parameter values: `U` and `CX` are primitive operators, and a defined gate is the
circuit of its body, its formal arguments becoming local qubits in the order of the signature.

A gate that is being instantiated cannot occur in its own body at any depth: `active` holds the
names of the gates that are. Every defined gate that is not active is one of finitely many, which
is why the expansion ends.

Model of how the executor makes the gate of a call. Out of scope: how deep gates may call one
another before there is no more stack.
-/

namespace OpenQasm

/-- What is known of a declared gate. -/
inductive GateDefinition where
  | defined (signature : Signature) (body : List BodyStatement)
  | sealed
deriving DecidableEq, Repr

/-- The declared gates by name. -/
abbrev GateTable := List (String × GateDefinition)

namespace GateTable

/-- Declare a gate, replacing an earlier declaration of its name. -/
def insert (table : GateTable) (name : String) (definition : GateDefinition) : GateTable :=
  (name, definition) :: table.filter (·.1 != name)

/-- The names of the declared gates. -/
def names (table : GateTable) : List String := table.map Prod.fst

/-- A gate that is found has been declared. -/
theorem mem_names {table : GateTable} {name : String} {definition : GateDefinition}
    (h : table.lookup name = some definition) : name ∈ table.names := by
  obtain ⟨before, after, rfl, _⟩ := List.lookup_eq_some_iff.mp h
  rw [names, List.map_append, List.map_cons]
  exact List.mem_append_right _ List.mem_cons_self

variable {R : Type} [Scalar R]

/-- The values of the parameters that are passed. -/
def values (bindings : Bindings R) (parameters : List Expr) : Except RunError (List R) :=
  parameters.mapM (Expr.evaluate bindings)

/-- The local qubit of a formal argument, which cannot be indexed. -/
def localQubit (arguments : List String) (v : Operand) : Except RunError Nat :=
  if v.isIndexed then .error ⟨.undefinedRegister v.text, some v.pos⟩
  else match arguments.findIdx? (· == v.name) with
    | some j => .ok j
    | none => .error ⟨.undefinedRegister v.text, some v.pos⟩

/-- The circuit of a gate's body, whose calls `instantiateCall` instantiates. Barriers take no part
in it. -/
def instantiateBody (instantiateCall : GateName → List R → Except RunError (Gate (Amplitude R)))
    (arguments : List String) (bindings : Bindings R) :
    List BodyStatement → Except RunError (Circuit (Amplitude R))
  | [] => .ok .done
  | ⟨.barrier _, _⟩ :: rest => instantiateBody instantiateCall arguments bindings rest
  | ⟨.call c, pos⟩ :: rest => do
    let parameters ← (values bindings c.passed).mapError (.located pos)
    let targets ← c.operands.mapM (localQubit arguments)
    let gate ← (instantiateCall c.gate parameters).mapError (.located pos)
    let circuit ← instantiateBody instantiateCall arguments bindings rest
    return .step gate targets circuit

/-- The gate of a name for these parameter values, while `active` gates are being instantiated. -/
def instantiateWithin (table : GateTable) (active : List String) (gate : GateName)
    (parameters : List R) : Except RunError (Gate (Amplitude R)) :=
  match gate with
  | .rotation =>
    match parameters with
    | [theta, phi, lambda] => .ok (.rotation theta phi lambda)
    | _ => .error (.bare (.sizeMismatch (.rotationParameters parameters.length)))
  | .controlledNot => .ok .controlledNot
  | .named name =>
    match hfound : table.lookup name with
    | none => .error (.bare (.undefinedGate name))
    | some .sealed => .error (.bare (.opaqueGate name))
    | some (.defined signature body) =>
      if hnew : name ∈ active then .error (.bare (.recursiveGate name))
      else if signature.formals.length ≠ parameters.length then
        .error (.bare (.sizeMismatch
          (.gateParameters name signature.formals.length parameters.length)))
      else do
        have := pending_cons_lt (mem_names hfound) hnew
        let circuit ← instantiateBody
          (fun inner passed => instantiateWithin table (name :: active) inner passed)
          signature.arguments (.ofLists signature.formals parameters) body
        return .composite signature.arguments.length circuit
termination_by pending table.names active

/-- The gate of a name for these parameter values. -/
def instantiate (table : GateTable) (gate : GateName) (parameters : List R) :
    Except RunError (Gate (Amplitude R)) :=
  table.instantiateWithin [] gate parameters

end GateTable

end OpenQasm
