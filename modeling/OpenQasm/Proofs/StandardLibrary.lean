import OpenQasm.Include.StandardGates
import OpenQasm.Proofs.Instantiation
import OpenQasm.Proofs.Printing
import OpenQasm.Proofs.Tracking

/-!
# The gates of the bundled library

What the text of the library declares, and that executing it declares just that. Positions take no
part in what a gate is instantiated to, so bodies are written without them (`BodyStatement.shape`).

* `Expr.evaluate_shape`, `GateTable.instantiateBody_shape`: the value of an expression and the
  circuit of a body, with and without positions.
* `Executor.run_definitions`: statements that only declare gates leave the machine as it is.
* `StandardGates.exists_program`: the text is read as declarations of gates with different names,
  among them the controlled rotations. The reading is computed, on the characters of the text
  (`toList_text`).
* **`StandardGates.exists_run`**: what an executor has declared once it has executed the library.
-/

namespace OpenQasm

/-! ## Bodies without positions -/

/-- A statement of a gate's body without its positions. -/
def BodyStatement.shape (b : BodyStatement) : BodyStatement where
  action := match b.action with
    | .call c =>
      .call ⟨c.gate, c.parameters.map (·.map Expr.shape), c.operands.map Operand.shape⟩
    | .barrier operands => .barrier (operands.map Operand.shape)
  pos := default

section Shape

variable {R : Type} [Scalar R]

/-- An expression has its value wherever it is written. -/
theorem Expr.evaluate_shape {bindings : Bindings R} {e : Expr} {x : R} :
    e.shape.evaluate bindings = .ok x ↔ e.evaluate bindings = .ok x := by
  induction e generalizing x with
  | real value pos => simp only [shape, evaluate, finite_eq_ok]
  | integer value pos => simp only [shape, evaluate, finite_eq_ok]
  | pi pos => simp only [shape, evaluate, finite_eq_ok]
  | operand v =>
    simp only [shape, evaluate, Operand.shape]
    cases bindings.lookup v.name with
    | none => exact ⟨nofun, nofun⟩
    | some y => simp only [finite_eq_ok]
  | neg target pos ih => simp only [shape, evaluate, bind_eq_ok, finite_eq_ok, ih]
  | binary op left right ihl ihr =>
    simp only [shape, evaluate, bind_eq_ok, finite_eq_ok, ihl, ihr]
  | call function target pos ih => simp only [shape, evaluate, bind_eq_ok, finite_eq_ok, ih]

/-- Items whose images succeed as they do themselves. -/
theorem mapM_map_eq_ok {α β ε : Type} {f : α → Except ε β} {g : α → α}
    (h : ∀ a b, f (g a) = .ok b ↔ f a = .ok b) {items : List α} {results : List β} :
    (items.map g).mapM f = .ok results ↔ items.mapM f = .ok results := by
  induction items generalizing results with
  | nil => rfl
  | cons a rest ih => simp only [List.map_cons, List.mapM_cons, bind_eq_ok, h, ih]

namespace GateTable

theorem values_shape {bindings : Bindings R} {parameters : List Expr} {found : List R} :
    values bindings (parameters.map Expr.shape) = .ok found ↔
      values bindings parameters = .ok found :=
  mapM_map_eq_ok fun _ _ => Expr.evaluate_shape

theorem localQubit_shape {arguments : List String} {v : Operand} {j : Nat} :
    localQubit arguments v.shape = .ok j ↔ localQubit arguments v = .ok j := by
  rw [localQubit_eq_ok, localQubit_eq_ok]
  rfl

/-- A body stands for its circuit wherever it is written. -/
theorem instantiateBody_shape
    {instantiateCall : GateName → List R → Except RunError (Gate (Amplitude R))}
    {arguments : List String} {bindings : Bindings R} : ∀ (body : List BodyStatement)
    {circuit : Circuit (Amplitude R)},
    instantiateBody instantiateCall arguments bindings (body.map BodyStatement.shape) =
        .ok circuit ↔
      instantiateBody instantiateCall arguments bindings body = .ok circuit
  | [], _ => Iff.rfl
  | ⟨.barrier _, _⟩ :: rest, circuit => by
    rw [instantiateBody]
    exact instantiateBody_shape rest
  | ⟨.call c, pos⟩ :: rest, circuit => by
    have hpassed : (c.parameters.map (·.map Expr.shape)).getD [] = c.passed.map Expr.shape := by
      unfold GateCall.passed
      cases c.parameters <;> rfl
    rw [List.map_cons, BodyStatement.shape, instantiateBody_call_eq_ok, instantiateBody_call_eq_ok]
    simp only [GateCall.passed, hpassed, values_shape, mapM_map_eq_ok fun _ _ => localQubit_shape,
      instantiateBody_shape rest]

/-- A gate is declared with this signature and this body, positions apart. -/
def Declares (table : GateTable) (signature : Signature) (body : List BodyStatement) : Prop :=
  ∃ written, table.lookup signature.name = some (.defined signature written) ∧
    written.map BodyStatement.shape = body

theorem Declares.instantiateWithin {table : GateTable} {signature : Signature}
    {body : List BodyStatement} (h : table.Declares signature body) {active : List String}
    (hnew : signature.name ∉ active) (parameters : List R)
    (hlength : signature.formals.length = parameters.length) {circuit : Circuit (Amplitude R)}
    (hbody : instantiateBody (table.instantiateWithin (signature.name :: active))
      signature.arguments (.ofLists signature.formals parameters) body = .ok circuit) :
    table.instantiateWithin active (.named signature.name) parameters =
      .ok (.composite signature.arguments.length circuit) := by
  obtain ⟨written, hlookup, rfl⟩ := h
  exact instantiateWithin_named_eq_ok.mpr ⟨signature, written, circuit, hlookup, hnew, hlength,
    (instantiateBody_shape written).mp hbody, rfl⟩

end GateTable

end Shape

/-! ## Executing declarations -/

/-- **Declarations of gates** always succeed; the table then has their definitions in front of what
it had. -/
theorem Executor.run_definitions {R : Type} [Scalar R] : ∀ {statements : List Statement}
    (x : Executor R), (∀ s ∈ statements, s.action.definition?.isSome = true) →
    ((definitions statements).map Prod.fst).Nodup →
    ∃ gates, x.run statements = ⟨{ x with gates }, none⟩ ∧
      ∀ name, gates.lookup name = ((definitions statements).lookup name).or (x.gates.lookup name)
  | [], x, _, _ => ⟨x.gates, rfl, fun _ => rfl⟩
  | s :: rest, x, hall, hd => by
    obtain ⟨⟨name, definition⟩, hs⟩ :=
      Option.isSome_iff_exists.mp (hall s List.mem_cons_self)
    have hdefinitions : definitions (s :: rest) = (name, definition) :: definitions rest := by
      rw [definitions, List.filterMap_cons, hs]
      rfl
    rw [hdefinitions, List.map_cons, List.nodup_cons] at hd
    have hexecute : x.execute s = ⟨{ x with gates := x.gates.insert name definition }, none⟩ := by
      rw [execute_eq]
      cases ha : s.action <;> rw [ha] at hs <;> cases hs <;> rfl
    obtain ⟨gates, hrun, hlookup⟩ :=
      run_definitions { x with gates := x.gates.insert name definition }
        (fun t ht => hall t (List.mem_cons_of_mem _ ht)) hd.2
    refine ⟨gates, (run_cons hexecute rest).trans hrun, fun other => ?_⟩
    rw [hlookup, hdefinitions, List.lookup_cons, GateTable.lookup_insert]
    by_cases ho : other = name
    · subst ho
      have hnone : (definitions rest).lookup other = none := by
        refine List.lookup_eq_none_iff.mpr fun entry hentry => ?_
        rw [bne_iff_ne]
        rintro rfl
        exact hd.1 (List.mem_map.mpr ⟨entry, hentry, rfl⟩)
      rw [hnone, if_pos rfl, beq_self_eq_true]
      rfl
    · have hne : (other == name) = false := by simpa using ho
      rw [if_neg ho, hne]

/-! ## What the text declares -/

namespace StandardGates

/-- A formal of a gate, in an expression. -/
def formal (name : String) : Expr := .operand ⟨name, none, default⟩

/-- Half of an expression. -/
def halved (e : Expr) : Expr := .binary .div e (.integer 2 default)

def zero : Expr := .integer 0 default

def minus (e : Expr) : Expr := .neg e default

/-- A call in a body, without positions. -/
def called (gate : GateName) (parameters : Option (List Expr)) (arguments : List String) :
    BodyStatement :=
  ⟨.call ⟨gate, parameters, arguments.map fun name => ⟨name, none, default⟩⟩, default⟩

/-- `gate u3(theta,phi,lambda) q` -/
def u3 : Signature := ⟨"u3", some ["theta", "phi", "lambda"], ["q"]⟩

def u3Body : List BodyStatement :=
  [called .rotation (some [formal "theta", formal "phi", formal "lambda"]) ["q"]]

/-- `gate u1(lambda) q` -/
def u1 : Signature := ⟨"u1", some ["lambda"], ["q"]⟩

def u1Body : List BodyStatement := [called .rotation (some [zero, zero, formal "lambda"]) ["q"]]

/-- `gate cx c,t` -/
def cx : Signature := ⟨"cx", none, ["c", "t"]⟩

def cxBody : List BodyStatement := [called .controlledNot none ["c", "t"]]

/-- `gate crz(lambda) a,b` -/
def crz : Signature := ⟨"crz", some ["lambda"], ["a", "b"]⟩

def crzBody : List BodyStatement :=
  [called (.named "u1") (some [halved (formal "lambda")]) ["b"],
    called (.named "cx") none ["a", "b"],
    called (.named "u1") (some [halved (minus (formal "lambda"))]) ["b"],
    called (.named "cx") none ["a", "b"]]

/-- `gate cu1(lambda) a,b` -/
def cu1 : Signature := ⟨"cu1", some ["lambda"], ["a", "b"]⟩

def cu1Body : List BodyStatement :=
  [called (.named "u1") (some [halved (formal "lambda")]) ["a"],
    called (.named "cx") none ["a", "b"],
    called (.named "u1") (some [halved (minus (formal "lambda"))]) ["b"],
    called (.named "cx") none ["a", "b"],
    called (.named "u1") (some [halved (formal "lambda")]) ["b"]]

/-- `gate cu3(theta,phi,lambda) c,t` -/
def cu3 : Signature := ⟨"cu3", some ["theta", "phi", "lambda"], ["c", "t"]⟩

def cu3Body : List BodyStatement :=
  [called (.named "u1") (some [halved (.binary .sub (formal "lambda") (formal "phi"))]) ["t"],
    called (.named "cx") none ["c", "t"],
    called (.named "u3") (some [halved (minus (formal "theta")), zero,
      halved (minus (.binary .add (formal "phi") (formal "lambda")))]) ["t"],
    called (.named "cx") none ["c", "t"],
    called (.named "u3") (some [halved (formal "theta"), formal "phi", zero]) ["t"]]

/-- The controlled rotations of the library, and the gates that they are made of. -/
def rotationGates : List (Signature × List BodyStatement) :=
  [(u3, u3Body), (u1, u1Body), (cx, cxBody), (crz, crzBody), (cu1, cu1Body), (cu3, cu3Body)]

/-- A definition, positions apart. -/
def shapeOf : GateDefinition → Option (Signature × List BodyStatement)
  | .defined signature body => some (signature, body.map BodyStatement.shape)
  | .sealed => none

/-- A program that declares gates only, each once, and among them the controlled rotations. -/
def Declaring (p : Program) : Prop :=
  (∀ s ∈ p.statements, s.action.definition?.isSome = true) ∧
    ((definitions p.statements).map Prod.fst).Nodup ∧
    ∀ g ∈ rotationGates, ((definitions p.statements).lookup g.1.name).bind shapeOf = some g

instance (p : Program) : Decidable (Declaring p) := by unfold Declaring; infer_instance

theorem toList_text : text.toList = lines.flatMap fun line => line.toList ++ ['\n'] := by
  simp [text, List.flatMap_map]

theorem exists_program : ∃ library, program = .ok library ∧ Declaring library := by
  have hchecked : program.toOption.any (fun p => decide (Declaring p)) = true := by
    simp only [program, Program.fragmentOfText, scan, toList_text, lines, gate, longGate,
      List.map_cons, List.map_nil, List.cons_append, List.nil_append, List.flatMap_cons,
      List.flatMap_nil, String.toList_append, String.reduceToList]
    decide +kernel
  cases hprogram : program with
  | error e =>
    rw [hprogram] at hchecked
    cases hchecked
  | ok library =>
    rw [hprogram] at hchecked
    exact ⟨library, rfl, of_decide_eq_true hchecked⟩

/-- **Executing the library** declares its gates, whatever was declared before, and does nothing
else. -/
theorem exists_run : ∃ library, program = .ok library ∧
    ∀ {R : Type} [Scalar R] (x : Executor R), ∃ gates : GateTable,
      x.run library.statements = ⟨{ x with gates }, none⟩ ∧
        ∀ g ∈ rotationGates, gates.Declares g.1 g.2 := by
  obtain ⟨library, hprogram, hall, hdistinct, hrotations⟩ := exists_program
  refine ⟨library, hprogram, fun x => ?_⟩
  obtain ⟨gates, hrun, hlookup⟩ := Executor.run_definitions x hall hdistinct
  refine ⟨gates, hrun, fun g hg => ?_⟩
  obtain ⟨definition, hfound, hshape⟩ := Option.bind_eq_some_iff.mp (hrotations g hg)
  cases definition with
  | sealed => cases hshape
  | defined signature body =>
    obtain rfl := Option.some.inj hshape
    exact ⟨body, by rw [hlookup, hfound]; rfl, rfl⟩

end StandardGates

end OpenQasm
