import OpenQasm.Proofs.Blame
import OpenQasm.Proofs.Failure

/-!
# Where the error of a statement is located

A statement that fails says one position, the innermost that is known. An expression without a
finite value is known by itself. A gate that is expanded knows the statements of its body, however
deep it is called. For everything else, in particular for what the machine says of registers and
qubits and for an operation under a condition, there is only the statement that is executed.

* `Executor.Processes`, `Executor.Evaluates`: the calls in bodies that an executed statement comes
  to, and the expressions.
* `Mechanical`: what the machine says, which is never about an expression.
* `Executor.Origin`: the places that an error comes from, and `Executor.origin_of_perform`: there is
  no other.
* **`Executor.location_of_error`**: the position.
-/

namespace OpenQasm

/-! ## Faults of the machine -/

/-- The fault of an expression whose value is not finite. -/
def RunFault.IsNotANumber : RunFault → Prop
  | .notANumber _ => True
  | _ => False

/-- An error, if there is one, is not about the value of an expression. -/
def Mechanical {α : Type} (x : Except RunFault α) : Prop :=
  Ends x (fun _ => True) (¬·.IsNotANumber)

namespace Mechanical

variable {α β : Type} {x : Except RunFault α}

theorem bind {f : α → Except RunFault β} (h : Mechanical x) (hf : ∀ a, Mechanical (f a)) :
    Mechanical (x >>= f) := Ends.bind h fun a _ _ => hf a

theorem map {f : α → β} (h : Mechanical x) : Mechanical (x.map f) := Ends.map h fun _ _ => trivial

theorem pure (a : α) : Mechanical (Except.ok a) := trivial

theorem ite_throw {c : Prop} [Decidable c] {fault : RunFault} (hfault : ¬fault.IsNotANumber)
    (hx : Mechanical x) : Mechanical (if c then throw fault else x) :=
  Ends.ite_throw (fun _ => hfault) fun _ => hx

theorem mapM {f : α → Except RunFault β} (hf : ∀ a, Mechanical (f a)) {items : List α} :
    Mechanical (items.mapM f) :=
  (Ends.mapM fun a _ => hf a).mono (fun _ _ => trivial) fun _ => id

/-- What goes wrong with vectors and matrices. -/
theorem algebra (y : Except AlgebraError α) : Mechanical (y.mapError .algebra) := by
  cases y with
  | ok a => trivial
  | error e => exact id

end Mechanical

namespace Machine

variable {R : Type} (m : Machine R)

theorem mechanical_quantumRegister (name : String) : Mechanical (m.quantumRegister name) := by
  unfold quantumRegister
  split
  · trivial
  · exact id

theorem mechanical_classicalRegister (name : String) : Mechanical (m.classicalRegister name) := by
  unfold classicalRegister
  split
  · trivial
  · exact id

theorem mechanical_checkIndex (name : String) (index width : Nat) :
    Mechanical (checkIndex name index width) := Mechanical.ite_throw id (.pure ())

theorem mechanical_qubit (name : String) (index : Nat) : Mechanical (m.qubit name index) :=
  (m.mechanical_quantumRegister name).bind fun r =>
    (mechanical_checkIndex name index r.width).bind fun _ => .pure _

theorem mechanical_checkFresh (name : String) (width : Nat) :
    Mechanical (m.checkFresh name width) :=
  Mechanical.ite_throw id (Mechanical.ite_throw id (.pure ()))

theorem mechanical_declareClassical (name : String) (width : Nat) :
    Mechanical (m.declareClassical name width) :=
  (m.mechanical_checkFresh name width).bind fun _ => Mechanical.ite_throw id (.pure _)

theorem mechanical_checkTargets {total : Nat} : ∀ {seen targets : List Nat},
    Mechanical (checkTargets total seen targets)
  | _, [] => .pure ()
  | _, _ :: _ => Mechanical.ite_throw id (Mechanical.ite_throw id mechanical_checkTargets)

theorem mechanical_repetitions (gate : GateName) (operands : List Operand)
    (bits : List (List Nat)) : Mechanical (repetitions gate operands bits) := by
  unfold repetitions
  split
  · trivial
  · split
    · trivial
    · exact id

theorem mechanical_checkBarrier (operands : List Operand) :
    Mechanical (m.checkBarrier operands) :=
  Ends.forM fun v _ => (m.mechanical_quantumRegister v.name).bind fun _ => .pure _

theorem mechanical_operandBits (v : Operand) : Mechanical (m.operandBits v) := by
  unfold operandBits
  split
  · exact (m.mechanical_qubit v.name _).bind fun _ => .pure _
  · exact (m.mechanical_quantumRegister v.name).bind fun _ => .pure _

variable [Scalar R]

theorem mechanical_declareQuantum (name : String) (width : Nat) :
    Mechanical (m.declareQuantum name width) :=
  (m.mechanical_checkFresh name width).bind fun _ =>
    Mechanical.ite_throw id ((Mechanical.algebra _).bind fun _ => .pure _)

theorem mechanical_measureBits (offset width : Nat) : Mechanical (m.measureBits offset width) :=
  (Mechanical.algebra _).bind fun _ => .pure _

theorem mechanical_measureOperand (source target : Operand) :
    Mechanical (m.measureOperand source target) := by
  unfold measureOperand
  split
  · refine (m.mechanical_quantumRegister _).bind fun q => ?_
    refine (m.mechanical_classicalRegister _).bind fun c => Mechanical.ite_throw id ?_
    exact (m.mechanical_measureBits _ _).bind fun _ => .pure _
  · refine (m.mechanical_qubit _ _).bind fun bit => ?_
    refine (m.mechanical_classicalRegister _).bind fun c => ?_
    refine (mechanical_checkIndex _ _ _).bind fun _ => ?_
    exact (m.mechanical_measureBits _ _).bind fun _ => .pure _
  · exact id

theorem mechanical_resetOperand (v : Operand) : Mechanical (m.resetOperand v) := by
  unfold resetOperand
  split
  · refine (m.mechanical_quantumRegister _).bind fun r => ?_
    exact (Mechanical.algebra _).bind fun _ => .pure _
  · refine (m.mechanical_qubit _ _).bind fun bit => ?_
    exact (Mechanical.algebra _).bind fun _ => .pure _
  · have hdiscard : Mechanical (discard (m.classicalRegister v.name)) :=
      (m.mechanical_classicalRegister v.name).bind fun _ => .pure _
    exact hdiscard.bind fun _ => .pure _
  · refine (m.mechanical_classicalRegister _).bind fun c => ?_
    exact (mechanical_checkIndex _ _ _).bind fun _ => .pure _

theorem mechanical_apply (gate : Gate (Amplitude R)) (targets : List Nat) :
    Mechanical (m.apply gate targets) :=
  mechanical_checkTargets.bind fun _ => (Mechanical.algebra _).bind fun _ =>
    Mechanical.ite_throw id (.pure _)

end Machine

/-! ## What a statement comes to -/

section Statements

variable {R : Type} [Scalar R]

/-- The applications that an action stands for have been prepared, and this is one of them. -/
def Executor.Expands (x : Executor R) (a : Action) (call : Applied R) : Prop :=
  ∃ c calls, x.Executes a (.call c) ∧ x.machine.applications c = .ok calls ∧ call ∈ calls

/-- A call in the body of a gate is come to while a statement is executed. -/
def Executor.Processes (x : Executor R) (s : Statement) (f : GateTable.Frame R) : Prop :=
  ∃ call, x.Expands s.action call ∧ x.gates.Reaches [] call.gate call.parameters f

/-- An expression is evaluated while a statement is executed, for these values of parameters: the
value of its condition, a parameter of its call, or one of a call in the body of a gate. -/
inductive Executor.Evaluates (x : Executor R) (s : Statement) : Bindings R → Expr → Prop
  | condition {register : Operand} {r : ClassicalRegister} {value : Expr} {o : Operation}
      {pos : SourcePos} : s.action = .conditional register value o pos →
      x.machine.classicalRegister register.name = .ok r → Evaluates x s [] value
  | parameter {c : GateCall} {e : Expr} : x.Executes s.action (.call c) →
      c.Evaluates ([] : Bindings R) e → Evaluates x s [] e
  | body {f : GateTable.Frame R} {e : Expr} : x.Processes s f → f.call.Evaluates f.bindings e →
      Evaluates x s f.bindings e

/-- Where an error comes from: an expression of the statement, a gate that its call does not enter,
a call in a body, or the machine. -/
inductive Executor.Origin (x : Executor R) (s : Statement) : RunError → Prop
  | expression {e sub : Expr} : x.Evaluates s [] e → e.firstFailing ([] : Bindings R) = some sub →
      (∀ call, ¬x.Expands s.action call) → Origin x s (sub.failure ([] : Bindings R))
  | gate {call : Applied R} {fault : RunFault} : x.Expands s.action call →
      x.gates.Refused [] call.gate call.parameters fault → Origin x s (.bare fault)
  | body {f : GateTable.Frame R} {error : RunError} : x.Processes s f → x.gates.Breaks f error →
      Origin x s error
  | machine {fault : RunFault} : ¬fault.IsNotANumber →
      (∀ f error, x.Processes s f → ¬x.gates.Breaks f error) → Origin x s (.bare fault)

variable {x after : Executor R} {s : Statement} {error : RunError}

/-- The applications of a call differ only in their bits. -/
theorem Machine.uniform_of_applications {m : Machine R} {c : GateCall} {calls : List (Applied R)}
    (h : m.applications c = .ok calls) :
    ∃ parameters : List R, ∀ call ∈ calls, call.gate = c.gate ∧ call.parameters = parameters := by
  obtain ⟨parameters, -, h⟩ := bind_eq_ok.mp h
  obtain ⟨bits, -, h⟩ := bind_eq_ok.mp h
  obtain ⟨count, -, h⟩ := bind_eq_ok.mp h
  refine ⟨parameters, fun call hcall => ?_⟩
  rw [← Except.ok.inj h] at hcall
  obtain ⟨k, -, rfl⟩ := List.mem_map.mp hcall
  exact ⟨rfl, rfl⟩

namespace Executor

/-- An action executes one operation at most. -/
theorem Executes.unique {a : Action} {o o' : Operation} (h : x.Executes a o)
    (h' : x.Executes a o') : o' = o := by
  cases a with
  | operation => exact h'.trans h.symm
  | conditional => exact h'.2.trans h.2.symm
  | register => cases h
  | gate => cases h
  | opaqueGate => cases h
  | barrier => cases h

/-- All the gates that an action instantiates are the same. -/
theorem Expands.unique {a : Action} {call other : Applied R} (h : x.Expands a call)
    (hother : x.Expands a other) :
    other.gate = call.gate ∧ other.parameters = call.parameters := by
  obtain ⟨c, calls, hc, hcalls, hmem⟩ := h
  obtain ⟨c', calls', hc', hcalls', hmem'⟩ := hother
  cases hc.unique hc'
  cases hcalls.symm.trans hcalls'
  obtain ⟨parameters, huniform⟩ := Machine.uniform_of_applications hcalls
  obtain ⟨hgate, hparameters⟩ := huniform call hmem
  obtain ⟨hgate', hparameters'⟩ := huniform other hmem'
  exact ⟨hgate'.trans hgate.symm, hparameters'.trans hparameters.symm⟩

/-- What a call in a body says that fails is what the instantiation fails with. -/
theorem Processes.instantiate_eq {call : Applied R} {f : GateTable.Frame R}
    (hcall : x.Expands s.action call) (h : x.Processes s f) (hbreaks : x.gates.Breaks f error) :
    x.gates.instantiate call.gate call.parameters = .error error := by
  obtain ⟨other, hother, hreaches⟩ := h
  obtain ⟨hgate, hparameters⟩ := hcall.unique hother
  rw [← hgate, ← hparameters]
  exact hreaches.instantiateWithin_eq hbreaks

/-- Where no call is prepared, none is come to in a body. -/
theorem not_processes (hnone : ∀ call, ¬x.Expands s.action call) (f : GateTable.Frame R) :
    ¬x.Processes s f := fun ⟨call, hcall, _⟩ => hnone call hcall

/-! ## Where the errors come from -/

/-- The machine fails before a gate is expanded. -/
theorem Origin.of_machine {α : Type} {y : Except RunFault α} {fault : RunFault}
    (hy : Mechanical y) (h : y = .error fault) (hnone : ∀ call, ¬x.Expands s.action call) :
    x.Origin s (.bare fault) :=
  .machine (hy.error_of_eq h) fun f _ hf _ => not_processes hnone f hf

theorem Origin.of_ofExcept {S : Type} {y : Except RunFault S} {before stopped : S}
    (hy : Mechanical y)
    (h : Outcome.ofExcept before (y.mapError .bare) = ⟨stopped, some error⟩)
    (hnone : ∀ call, ¬x.Expands s.action call) : x.Origin s error := by
  obtain ⟨fault, hfault, rfl⟩ := mapError_eq_error.mp (Outcome.ofExcept_eq_error.mp h).1
  exact .of_machine hy hfault hnone

/-- A call is not prepared for one of its parameters, for an operand, or for the widths of the
operands. -/
theorem origin_of_applications {c : GateCall} (hexecutes : x.Executes s.action (.call c))
    (h : x.machine.applications c = .error error) : x.Origin s error := by
  have hnone : ∀ call, ¬x.Expands s.action call := by
    rintro call ⟨c', calls, hc', hcalls, -⟩
    cases hexecutes.unique hc'
    rw [h] at hcalls
    cases hcalls
  rcases bind_eq_error.mp h with hvalues | ⟨parameters, -, hrest⟩
  · obtain ⟨e, sub, he, hsub, rfl⟩ := GateTable.values_eq_error.mp hvalues
    exact .expression (.parameter hexecutes he) hsub hnone
  rcases bind_eq_error.mp hrest with hbits | ⟨bits, -, hrest⟩
  · obtain ⟨fault, hfault, rfl⟩ := mapError_eq_error.mp hbits
    exact .of_machine (.mapM x.machine.mechanical_operandBits) hfault hnone
  rcases bind_eq_error.mp hrest with hcount | ⟨count, -, hrest⟩
  · obtain ⟨fault, hfault, rfl⟩ := mapError_eq_error.mp hcount
    exact .of_machine (Machine.mechanical_repetitions ..) hfault hnone
  · cases hrest

/-- A call fails while it is prepared, while its gate is instantiated, or when the gate is applied.
The gate is the same for all applications, so that the last case leaves no call in a body. -/
theorem origin_of_call {c : GateCall} {machine : Machine R}
    (hexecutes : x.Executes s.action (.call c))
    (h : x.machine.call x.gates c = ⟨machine, some error⟩) : x.Origin s error := by
  rw [Machine.call_eq] at h
  cases hprepared : x.machine.applications c with
  | error found =>
    rw [hprepared] at h
    cases h
    exact origin_of_applications hexecutes hprepared
  | ok calls =>
    rw [hprepared] at h
    obtain ⟨done, call, rest, next, rfl, -, hcall⟩ := Outcome.forAll_eq_error h
    have hexpands : x.Expands s.action call :=
      ⟨c, _, hexecutes, hprepared, List.mem_append_right _ List.mem_cons_self⟩
    rcases bind_eq_error.mp (Outcome.ofExcept_eq_error.mp hcall).1 with
      hinstantiate | ⟨gate, hinstantiate, happly⟩
    · rcases (GateTable.instantiateWithin_eq_error ..).mp hinstantiate with
        ⟨fault, hrefused, rfl⟩ | ⟨f, hreaches, hbreaks⟩
      · exact .gate hexpands hrefused
      · exact .body ⟨call, hexpands, hreaches⟩ hbreaks
    · obtain ⟨fault, hfault, rfl⟩ := mapError_eq_error.mp happly
      refine .machine ((next.mechanical_apply gate call.bits).error_of_eq hfault)
        fun f error hf hbreaks => ?_
      rw [hf.instantiate_eq hexpands hbreaks] at hinstantiate
      cases hinstantiate

theorem origin_of_operate {o : Operation} {machine : Machine R}
    (hexecutes : x.Executes s.action o)
    (h : x.machine.operate x.gates o = ⟨machine, some error⟩) : x.Origin s error := by
  have hnone (hcall : ∀ c, o ≠ .call c) (call : Applied R) : ¬x.Expands s.action call := by
    rintro ⟨c, calls, hc, -⟩
    exact hcall c (hc.unique hexecutes)
  cases o with
  | call c => exact origin_of_call hexecutes h
  | measure source target =>
    exact .of_ofExcept (x.machine.mechanical_measureOperand source target) h (hnone nofun)
  | reset target => exact .of_ofExcept (x.machine.mechanical_resetOperand target) h (hnone nofun)

/-- A condition fails for its register, for its value or for its index. -/
theorem origin_of_condition {register : Operand} {value : Expr} {o : Operation} {pos : SourcePos}
    (hs : s.action = .conditional register value o pos)
    (h : x.machine.condition register value = .error error) : x.Origin s error := by
  have hnone : ∀ call, ¬x.Expands s.action call := by
    rintro call ⟨c, calls, hc, -⟩
    rw [hs] at hc
    rw [hc.1] at h
    cases h
  rcases bind_eq_error.mp h with hregister | ⟨r, hr, hrest⟩
  · obtain ⟨fault, hfault, rfl⟩ := mapError_eq_error.mp hregister
    exact .of_machine (x.machine.mechanical_classicalRegister _) hfault hnone
  rcases bind_eq_error.mp hrest with hvalue | ⟨y, -, hrest⟩
  · obtain ⟨sub, hsub, rfl⟩ := Expr.evaluate_eq_error.mp hvalue
    exact .expression (.condition hs (mapError_eq_ok.mp hr)) hsub hnone
  split at hrest
  · cases hrest
  · split at hrest
    · cases hrest
    · cases hrest
      exact .machine id fun f _ hf _ => not_processes hnone f hf

/-- **Where the error of an action comes from**, before it is blamed on the statement. -/
theorem origin_of_perform (h : x.perform s.action = ⟨after, some error⟩) : x.Origin s error := by
  have hnone (ha : ∀ o, ¬x.Executes s.action o) (call : Applied R) : ¬x.Expands s.action call :=
    fun ⟨c, _, hc, _⟩ => ha (.call c) hc
  cases hs : s.action with
  | register kind name width =>
    rw [hs] at h
    have hnone := hnone fun o ho => by rw [hs] at ho; exact ho
    cases kind with
    | quantum =>
      obtain ⟨machine, hmachine, -⟩ := withMachine_eq_error h
      exact .of_ofExcept (x.machine.mechanical_declareQuantum name width) hmachine hnone
    | classical =>
      obtain ⟨machine, hmachine, -⟩ := withMachine_eq_error h
      exact .of_ofExcept (x.machine.mechanical_declareClassical name width) hmachine hnone
  | gate signature body =>
    rw [hs] at h
    cases h
  | opaqueGate signature =>
    rw [hs] at h
    cases h
  | operation o =>
    rw [hs] at h
    obtain ⟨machine, hmachine, -⟩ := withMachine_eq_error h
    exact origin_of_operate (hs ▸ rfl) hmachine
  | barrier operands =>
    rw [hs] at h
    have hnone := hnone fun o ho => by rw [hs] at ho; exact ho
    exact .of_ofExcept (x.machine.mechanical_checkBarrier operands).map h hnone
  | conditional register value o pos =>
    rw [hs, perform] at h
    cases hcondition : x.machine.condition register value with
    | error found =>
      rw [hcondition] at h
      cases h
      exact origin_of_condition hs hcondition
    | ok holds =>
      rw [hcondition] at h
      cases holds with
      | false => cases h
      | true =>
        obtain ⟨machine, hmachine, -⟩ := withMachine_eq_error h
        exact origin_of_operate (hs ▸ ⟨hcondition, rfl⟩) hmachine

end Executor

/-! ## The position -/

namespace GateTable

variable {table : GateTable} {f : Frame R}

omit [Scalar R] in
theorem Refused.not_isNotANumber {active : List String} {gate : GateName} {parameters : List R}
    {fault : RunFault} (h : table.Refused active gate parameters fault) : ¬fault.IsNotANumber := by
  cases h <;> exact id

/-- A call in a body that fails for another reason than the value of an expression gives its own
position, or that of an operand which is not a formal argument. -/
theorem Breaks.pos_eq (h : table.Breaks f error) (hfault : ¬error.fault.IsNotANumber) :
    error.pos = some f.pos ∨ ∃ v ∈ f.call.operands, ¬v.IsFormal f.arguments ∧
      error = ⟨.undefinedRegister v.text, some v.pos⟩ := by
  cases h with
  | @parameter e sub _ _ =>
    rcases sub.failure_cases f.bindings with hsub | ⟨v, hsub⟩
    · rw [hsub] at hfault
      exact absurd trivial hfault
    · rw [hsub]
      exact .inl rfl
  | @operand passed before after v _ hsplit _ hv =>
    exact .inr ⟨v, hsplit ▸ List.mem_append_right _ List.mem_cons_self, hv, rfl⟩
  | gate _ _ _ => exact .inl rfl

end GateTable

namespace Executor

/-- The error of a statement is located at this position, and at no other. -/
structure Locates (x : Executor R) (s : Statement) (error : RunError) (pos : SourcePos) : Prop where
  pos_eq : error.pos = some pos
  /-- A value that is not finite is located at the innermost subexpression that has none, the first
  one of an expression that is evaluated. -/
  number : ∀ sub, error.fault = .notANumber sub → pos = sub.pos ∧
    ∃ bindings e, x.Evaluates s bindings e ∧ e.firstFailing bindings = some sub ∧
      ∀ part ∈ sub.subexpressions, part ≠ sub → ∃ y, part.evaluate bindings = .ok y
  /-- Where a call in the body of a gate fails otherwise, the error is that call's, and it is
  located there or at an operand of the call. -/
  body : ¬error.fault.IsNotANumber → ∀ f inner, x.Processes s f → x.gates.Breaks f inner →
    error = inner ∧ (pos = f.pos ∨ ∃ v ∈ f.call.operands, ¬v.IsFormal f.arguments ∧
      error.fault = .undefinedRegister v.text ∧ pos = v.pos)
  /-- Where none does, the error is located at the statement. -/
  statement : ¬error.fault.IsNotANumber → (∀ f inner, x.Processes s f → ¬x.gates.Breaks f inner) →
    pos = s.pos

/-- What is said without a position, when no call in a body fails. -/
theorem Locates.of_bare {fault : RunFault} (hfault : ¬fault.IsNotANumber)
    (hnone : ∀ f inner, x.Processes s f → ¬x.gates.Breaks f inner) :
    x.Locates s ((RunError.bare fault).located s.pos) s.pos where
  pos_eq := rfl
  number sub h := by
    cases (show fault = .notANumber sub from h)
    exact absurd trivial hfault
  body _ f inner hf hbreaks := absurd hbreaks (hnone f inner hf)
  statement _ _ := rfl

/-- What is said of an expression. -/
theorem Locates.of_notANumber {bindings : Bindings R} {e sub : Expr}
    (he : x.Evaluates s bindings e) (hsub : e.firstFailing bindings = some sub) :
    x.Locates s ⟨.notANumber sub, some sub.pos⟩ sub.pos where
  pos_eq := rfl
  number other h := by
    cases h
    exact ⟨rfl, bindings, e, he, hsub, Expr.innermost_of_firstFailing hsub⟩
  body h := absurd trivial h
  statement h := absurd trivial h

/-- What is said of a call in a body: it is the only one that fails. -/
theorem Locates.of_breaks {f : GateTable.Frame R} (hf : x.Processes s f)
    (hbreaks : x.gates.Breaks f error) : ∃ pos, x.Locates s error pos := by
  by_cases hfault : error.fault.IsNotANumber
  · cases hbreaks with
    | @parameter e sub he hsub =>
      rcases sub.failure_cases f.bindings with h | ⟨v, h⟩
      · rw [h]
        exact ⟨sub.pos, .of_notANumber (.body hf he) hsub⟩
      · rw [h] at hfault
        cases hfault
    | operand _ _ _ _ => cases hfault
    | gate _ _ hrefused => exact absurd hfault hrefused.not_isNotANumber
  have hsome : ∃ pos, error.pos = some pos := by
    rcases hbreaks.pos_eq hfault with h | ⟨v, -, -, h⟩
    · exact ⟨f.pos, h⟩
    · exact ⟨v.pos, congrArg RunError.pos h⟩
  obtain ⟨pos, hpos⟩ := hsome
  obtain ⟨call, hcall, -⟩ := id hf
  refine ⟨pos, hpos, fun sub h => absurd (h ▸ trivial) hfault, fun _ g inner hg hinner => ?_,
    fun _ hnone => absurd hbreaks (hnone f error hf)⟩
  obtain rfl := Except.error.inj
    ((hf.instantiate_eq hcall hbreaks).symm.trans (hg.instantiate_eq hcall hinner))
  refine ⟨rfl, (hinner.pos_eq hfault).imp (fun h => ?_) ?_⟩
  · exact Option.some.inj (hpos.symm.trans h)
  · rintro ⟨v, hv, hformal, h⟩
    exact ⟨v, hv, hformal, congrArg RunError.fault h,
      Option.some.inj (hpos.symm.trans (congrArg RunError.pos h))⟩

theorem Origin.locates (h : x.Origin s error) : ∃ pos, x.Locates s (error.located s.pos) pos := by
  cases h with
  | @expression e sub he hsub hnone =>
    rcases sub.failure_cases ([] : Bindings R) with h | ⟨v, h⟩
    · rw [h]
      exact ⟨sub.pos, .of_notANumber he hsub⟩
    · rw [h]
      exact ⟨s.pos, .of_bare id fun f _ hf _ => not_processes hnone f hf⟩
  | gate hcall hrefused =>
    refine ⟨s.pos, .of_bare hrefused.not_isNotANumber fun f inner hf hbreaks => ?_⟩
    -- a gate that is not entered is blamed without a position, a call in a body with one
    have hgate := (GateTable.instantiateWithin_eq_error ..).mpr (.inl ⟨_, hrefused, rfl⟩)
    obtain rfl := Except.error.inj (hgate.symm.trans (hf.instantiate_eq hcall hbreaks))
    have hpos := hbreaks.located s.pos
    cases hpos
  | body hf hbreaks =>
    rw [hbreaks.located]
    exact Locates.of_breaks hf hbreaks
  | machine hfault hnone => exact ⟨s.pos, .of_bare hfault hnone⟩

/-- **Where an error is located.** The error of a statement is a fault, which has no position of its
own, with one position: of the innermost subexpression whose value is not finite, or else of the
call in the body of a gate that fails, however deep it is, or of the operand that makes it fail, and
of the statement itself if there is no such call. -/
theorem location_of_error (h : x.execute s = ⟨after, some error⟩) :
    ∃ pos, x.Locates s error pos := by
  rw [execute] at h
  cases hperform : x.perform s.action with
  | mk next error? =>
    rw [hperform] at h
    cases error? with
    | none => cases h
    | some inner =>
      have hlocates := (origin_of_perform hperform).locates
      cases h
      exact hlocates

end Executor

end Statements

/-! ## A failure two gates deep -/

namespace Executor

def nestedPos (line column : Nat) : SourcePos := ⟨"nested.qasm", line, column⟩

/-- The call in a body of the gates below. -/
def nestedCall (called : String) (line column : Nat) : GateCall :=
  ⟨.named called, none, [⟨"q", none, nestedPos line column⟩]⟩

def nestedGate (name called : String) (line column : Nat) : String × GateDefinition :=
  (name, .defined ⟨name, none, ["q"]⟩
    [⟨.call (nestedCall called line column), nestedPos line 16⟩])

/-- A gate that calls a gate whose body calls one that is not declared:
```
gate inner q { missing q; }
gate outer q { inner q; }
outer a[0];
```
-/
noncomputable def nestedExecutor : Executor ℝ :=
  { twoQubitExecutor declaredEntries with
    gates := [nestedGate "inner" "missing" 1 24, nestedGate "outer" "inner" 2 22] }

def nestedStatement : Statement :=
  ⟨.operation (.call ⟨.named "outer", none, [⟨"a", some 0, nestedPos 3 7⟩]⟩), nestedPos 3 1⟩

/-- The call that fails: it stands in the body of the inner gate. -/
def nestedFrame : GateTable.Frame ℝ :=
  ⟨["inner", "outer"], ["q"], [], nestedCall "missing" 1 24, nestedPos 1 16⟩

/-- Its operands, and those of the call around it. -/
theorem isFormal_nestedCall (called : String) (line column : Nat) :
    ∀ v ∈ (nestedCall called line column).operands, v.IsFormal ["q"] :=
  List.forall_mem_singleton.mpr ⟨rfl, List.mem_singleton_self _⟩

theorem reaches_nestedFrame :
    nestedExecutor.gates.Reaches [] (.named "outer") ([] : List ℝ) nestedFrame := by
  have houter : nestedExecutor.gates.Opens [] (.named "outer") ([] : List ℝ)
      ⟨["outer"], ["q"], [], nestedCall "inner" 2 22, nestedPos 2 16⟩ :=
    ⟨"outer", ⟨"outer", none, ["q"]⟩, [], [], .done, rfl, rfl, nofun, rfl, rfl, rfl, rfl, rfl⟩
  have hinner : nestedExecutor.gates.Opens ["outer"] (.named "inner") ([] : List ℝ) nestedFrame :=
    ⟨"inner", ⟨"inner", none, ["q"]⟩, [], [], .done, rfl, rfl, by decide, rfl, rfl, rfl, rfl, rfl⟩
  exact .inner houter rfl (isFormal_nestedCall _ _ _) (.direct hinner)

theorem breaks_nestedFrame :
    nestedExecutor.gates.Breaks nestedFrame ⟨.undefinedGate "missing", some (nestedPos 1 16)⟩ :=
  .gate rfl (isFormal_nestedCall _ _ _) (.undeclared rfl)

/-- The error is located in the body of the gate that is entered last. -/
theorem location_of_error_nested : ∃ after error,
    nestedExecutor.execute nestedStatement = ⟨after, some error⟩ ∧
      error.fault = .undefinedGate "missing" ∧
      nestedExecutor.Locates nestedStatement error (nestedPos 1 16) ∧
      nestedExecutor.Processes nestedStatement nestedFrame := by
  have happlications : nestedExecutor.machine.applications
      ⟨.named "outer", none, [⟨"a", some 0, nestedPos 3 7⟩]⟩ = .ok [⟨.named "outer", [], [0]⟩] :=
    rfl
  have hprocesses : nestedExecutor.Processes nestedStatement nestedFrame :=
    ⟨_, ⟨_, _, rfl, happlications, List.mem_cons_self⟩, reaches_nestedFrame⟩
  have hinstantiate := reaches_nestedFrame.instantiateWithin_eq breaks_nestedFrame
  have hcall : nestedExecutor.machine.call nestedExecutor.gates
      ⟨.named "outer", none, [⟨"a", some 0, nestedPos 3 7⟩]⟩ =
        ⟨nestedExecutor.machine, some ⟨.undefinedGate "missing", some (nestedPos 1 16)⟩⟩ := by
    rw [Machine.call_eq, happlications]
    dsimp only
    rw [Outcome.forAll, Machine.applyNamed, GateTable.instantiate, hinstantiate]
    rfl
  have hexecute : nestedExecutor.execute nestedStatement =
      ⟨nestedExecutor, some ⟨.undefinedGate "missing", some (nestedPos 1 16)⟩⟩ := by
    show (withMachine _ (Machine.call _ _ _)).located _ = _
    rw [hcall]
    rfl
  obtain ⟨pos, hlocates⟩ := location_of_error hexecute
  obtain rfl := Option.some.inj hlocates.pos_eq
  exact ⟨_, _, hexecute, rfl, hlocates, hprocesses⟩

end Executor

end OpenQasm
