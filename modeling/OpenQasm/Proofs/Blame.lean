import OpenQasm.Proofs.Instantiation

/-!
# Where the expansion of a gate fails

An expression fails in one of its subexpressions, and an expansion in one of the calls that it comes
to, which may stand in a body at any depth. Both are named here as what has no value or cannot be
carried out itself, whereas everything that was come to before has succeeded; an error is what is
said of it.

* `Expr.firstFailing`: the innermost subexpression that fails, `evaluate_eq_error`: its error.
* `GateTable.Reaches`: the calls in bodies that an expansion comes to.
* `GateTable.Breaks`: a call in a body that fails by itself, and its error: for a parameter, for an
  operand, or for a gate that cannot be entered (`GateTable.Refused`).
* **`GateTable.instantiateWithin_eq_error`**: an expansion fails exactly if its gate cannot be
  entered or it reaches a call that fails by itself, and its error is that call's.
-/

namespace OpenQasm

variable {R : Type} [Scalar R] {bindings : Bindings R}

/-- The position that is blamed first counts. -/
theorem RunError.located_located (e : RunError) (first second : SourcePos) :
    (e.located first).located second = e.located first := by
  obtain ⟨fault, _ | pos⟩ := e <;> rfl

/-! ## Expressions -/

namespace Expr

/-- The subexpressions in the order in which they get their values: each behind its parts, and those
of a left operand before those of the right one. -/
def subexpressions : Expr → List Expr
  | e@(.real ..) => [e]
  | e@(.integer ..) => [e]
  | e@(.pi _) => [e]
  | e@(.operand _) => [e]
  | e@(.neg target _) => target.subexpressions ++ [e]
  | e@(.binary _ left right) => left.subexpressions ++ right.subexpressions ++ [e]
  | e@(.call _ target _) => target.subexpressions ++ [e]

/-- The first subexpression that has no value. -/
def firstFailing (bindings : Bindings R) (e : Expr) : Option Expr :=
  e.subexpressions.find? fun sub => !(sub.evaluate bindings).isOk

/-- What is said of an expression that has no value, although its parts have one: an operand is not
bound, or else the value is not finite. -/
def failure (bindings : Bindings R) : Expr → RunError
  | .operand v =>
    match bindings.lookup v.name with
    | none => .bare (.unboundParameter v)
    | some _ => ⟨.notANumber (.operand v), some v.pos⟩
  | e => ⟨.notANumber e, some e.pos⟩

omit [Scalar R] in
/-- An operand that is not bound gives no position, an expression without a finite value its own. -/
theorem failure_cases (bindings : Bindings R) (e : Expr) :
    e.failure bindings = ⟨.notANumber e, some e.pos⟩ ∨
      ∃ v, e.failure bindings = .bare (.unboundParameter v) := by
  cases e with
  | operand v =>
    rw [failure]
    cases bindings.lookup v.name with
    | none => exact .inr ⟨v, rfl⟩
    | some x => exact .inl rfl
  | _ => exact .inl rfl

theorem finite_eq_error {e : Expr} {x : R} {error : RunError}
    (h : e.finite x = .error error) : error = ⟨.notANumber e, some e.pos⟩ := by
  unfold finite at h
  split at h
  · cases h
  · exact (Except.error.inj h).symm

/-- There is a value where no subexpression fails, and the error of the first one otherwise, which
is innermost: what it consists of has values. -/
def Explained (bindings : Bindings R) (e : Expr) : Prop :=
  (∃ x, e.evaluate bindings = .ok x) ∧ e.firstFailing bindings = none ∨
    ∃ sub, e.evaluate bindings = .error (sub.failure bindings) ∧
      e.firstFailing bindings = some sub ∧
      ∀ part ∈ sub.subexpressions, part ≠ sub → ∃ x, part.evaluate bindings = .ok x

namespace Explained

variable {e : Expr} {parts rest : List Expr}

/-- An expression whose parts have values: if it fails, it is the first subexpression that does. -/
theorem of_parts (hsub : e.subexpressions = parts ++ [e])
    (hparts : parts.find? (fun sub => !(sub.evaluate bindings).isOk) = none)
    (hfailure : ∀ error, e.evaluate bindings = .error error → error = e.failure bindings) :
    e.Explained bindings := by
  rw [Explained, firstFailing, hsub, List.find?_append, hparts, Option.none_or,
    List.find?_singleton]
  cases he : e.evaluate bindings with
  | ok x => exact .inl ⟨⟨x, rfl⟩, rfl⟩
  | error error =>
    refine .inr ⟨e, by rw [hfailure error he], rfl, fun part hpart hne => ?_⟩
    rw [hsub] at hpart
    rcases List.mem_append.mp hpart with hpart | hpart
    · exact exists_eq_ok (by simpa using List.find?_eq_none.mp hparts part hpart)
    · exact absurd (List.mem_singleton.mp hpart) hne

/-- An expression that fails with its first parts. -/
theorem of_failing {sub : Expr} (hsub : e.subexpressions = parts ++ rest)
    (hparts : parts.find? (fun sub => !(sub.evaluate bindings).isOk) = some sub)
    (hinner : ∀ part ∈ sub.subexpressions, part ≠ sub → ∃ x, part.evaluate bindings = .ok x)
    (hfailure : e.evaluate bindings = .error (sub.failure bindings)) : e.Explained bindings :=
  .inr ⟨sub, hfailure, by rw [firstFailing, hsub, List.find?_append, hparts, Option.some_or],
    hinner⟩

end Explained

/-- **Evaluation fails with the innermost subexpression that does**: by induction on the expression,
whose parts are evaluated from left to right. -/
theorem explained (bindings : Bindings R) (e : Expr) : e.Explained bindings := by
  induction e with
  | real value pos => exact .of_parts rfl List.find?_nil fun _ => finite_eq_error
  | integer value pos => exact .of_parts rfl List.find?_nil fun _ => finite_eq_error
  | pi pos => exact .of_parts rfl List.find?_nil fun _ => finite_eq_error
  | operand v =>
    refine .of_parts rfl List.find?_nil fun error h => ?_
    rw [evaluate] at h
    rw [failure]
    cases hv : bindings.lookup v.name with
    | none =>
      rw [hv] at h
      exact (Except.error.inj h).symm
    | some x =>
      rw [hv] at h
      exact finite_eq_error h
  | neg target pos ih =>
    rcases ih with ⟨⟨x, hx⟩, hnone⟩ | ⟨sub, herror, hsub, hinner⟩
    · refine .of_parts rfl hnone fun error h => ?_
      rw [evaluate, hx] at h
      exact finite_eq_error h
    · exact .of_failing rfl hsub hinner (by rw [evaluate, herror]; rfl)
  | call function target pos ih =>
    rcases ih with ⟨⟨x, hx⟩, hnone⟩ | ⟨sub, herror, hsub, hinner⟩
    · refine .of_parts rfl hnone fun error h => ?_
      rw [evaluate, hx] at h
      exact finite_eq_error h
    · exact .of_failing rfl hsub hinner (by rw [evaluate, herror]; rfl)
  | binary op left right ihl ihr =>
    rcases ihl with ⟨⟨x, hx⟩, hnone⟩ | ⟨sub, herror, hsub, hinner⟩
    · have hfind : (left.subexpressions ++ right.subexpressions).find?
          (fun sub => !(sub.evaluate bindings).isOk) = right.firstFailing bindings := by
        rw [List.find?_append, ← firstFailing, hnone, Option.none_or, firstFailing]
      rcases ihr with ⟨⟨y, hy⟩, hnone⟩ | ⟨sub, herror, hsub, hinner⟩
      · refine .of_parts rfl (hfind.trans hnone) fun error h => ?_
        rw [evaluate, hx, hy] at h
        exact finite_eq_error h
      · exact .of_failing rfl (hfind.trans hsub) hinner (by rw [evaluate, hx, herror]; rfl)
    · exact .of_failing (List.append_assoc ..) hsub hinner (by rw [evaluate, herror]; rfl)

/-- An expression fails with the error of the subexpression that fails first. -/
theorem evaluate_eq_error {e : Expr} {error : RunError} :
    e.evaluate bindings = .error error ↔
      ∃ sub, e.firstFailing bindings = some sub ∧ error = sub.failure bindings := by
  rcases explained bindings e with ⟨⟨x, hx⟩, hnone⟩ | ⟨sub, herror, hsub, -⟩
  · rw [hx, hnone]
    exact ⟨nofun, fun ⟨_, h, _⟩ => nomatch h⟩
  · rw [herror, hsub]
    constructor
    · exact fun h => ⟨sub, rfl, (Except.error.inj h).symm⟩
    · rintro ⟨_, h, rfl⟩
      cases h
      rfl

/-- The subexpression that fails first is innermost. -/
theorem innermost_of_firstFailing {e sub : Expr} (h : e.firstFailing bindings = some sub) :
    ∀ part ∈ sub.subexpressions, part ≠ sub → ∃ x, part.evaluate bindings = .ok x := by
  rcases explained bindings e with ⟨-, hnone⟩ | ⟨other, -, hother, hinner⟩
  · rw [hnone] at h
    cases h
  · rw [hother] at h
    cases h
    exact hinner

end Expr

/-- A call comes to evaluate a parameter: those before it have values. -/
def GateCall.Evaluates (c : GateCall) (bindings : Bindings R) (e : Expr) : Prop :=
  ∃ before after, c.passed = before ++ e :: after ∧
    ∀ other ∈ before, ∃ x, other.evaluate bindings = .ok x

/-- An operand in the body of a gate is one of its formal arguments. -/
def Operand.IsFormal (v : Operand) (arguments : List String) : Prop :=
  v.isIndexed = false ∧ v.name ∈ arguments

/-! ## Bodies -/

namespace GateTable

variable {table : GateTable}

theorem values_eq_error {c : GateCall} {error : RunError} :
    values bindings c.passed = .error error ↔
      ∃ e sub, c.Evaluates bindings e ∧ e.firstFailing bindings = some sub ∧
        error = sub.failure bindings := by
  simp only [values, mapM_eq_error, Expr.evaluate_eq_error]
  constructor
  · rintro ⟨before, e, after, hsplit, hbefore, sub, hsub, herror⟩
    exact ⟨e, sub, ⟨before, after, hsplit, hbefore⟩, hsub, herror⟩
  · rintro ⟨e, sub, ⟨before, after, hsplit, hbefore⟩, hsub, herror⟩
    exact ⟨before, e, after, hsplit, hbefore, sub, hsub, herror⟩

omit [Scalar R] in
theorem exists_localQubit {arguments : List String} {v : Operand} :
    (∃ j, localQubit arguments v = .ok j) ↔ v.IsFormal arguments := by
  simp only [localQubit_eq_ok, exists_and_left, Operand.IsFormal]
  refine and_congr_right fun _ => ?_
  rw [← Option.isSome_iff_exists, List.findIdx?_isSome, List.any_eq_true]
  simp

omit [Scalar R] in
theorem localQubit_eq_error {arguments : List String} {v : Operand} {error : RunError} :
    localQubit arguments v = .error error ↔
      ¬v.IsFormal arguments ∧ error = ⟨.undefinedRegister v.text, some v.pos⟩ := by
  rw [← exists_localQubit]
  unfold localQubit
  split
  · simp [eq_comm]
  · cases arguments.findIdx? (· == v.name) <;> simp [eq_comm]

/-- What a call in a body says if it fails: its parameters and its gate are blamed on the statement
unless they say more precisely where they fail. -/
inductive CallFails
    (instantiateCall : GateName → List R → Except RunError (Gate (Amplitude R)))
    (arguments : List String) (bindings : Bindings R) (c : GateCall) (pos : SourcePos) :
    RunError → Prop
  | parameter {error : RunError} : values bindings c.passed = .error error →
      CallFails instantiateCall arguments bindings c pos (error.located pos)
  | operand {passed : List R} {error : RunError} : values bindings c.passed = .ok passed →
      c.operands.mapM (localQubit arguments) = .error error →
      CallFails instantiateCall arguments bindings c pos error
  | gate {passed : List R} {targets : List Nat} {error : RunError} :
      values bindings c.passed = .ok passed →
      c.operands.mapM (localQubit arguments) = .ok targets →
      instantiateCall c.gate passed = .error error →
      CallFails instantiateCall arguments bindings c pos (error.located pos)

section Body

variable {instantiateCall : GateName → List R → Except RunError (Gate (Amplitude R))}
  {arguments : List String} {error : RunError}

/-- **A body fails in one of its calls**, and those before that one have been instantiated. -/
theorem instantiateBody_eq_error : ∀ {body : List BodyStatement},
    instantiateBody instantiateCall arguments bindings body = .error error ↔
      ∃ before c pos rest circuit, body = before ++ ⟨.call c, pos⟩ :: rest ∧
        instantiateBody instantiateCall arguments bindings before = .ok circuit ∧
        CallFails instantiateCall arguments bindings c pos error
  | [] => ⟨nofun, fun ⟨before, _, _, _, _, h, _⟩ => by cases before <;> cases h⟩
  | ⟨.barrier operands, pos⟩ :: rest => by
    rw [instantiateBody, instantiateBody_eq_error]
    constructor
    · rintro ⟨before, c, pos', after, circuit, rfl, hbefore, hfails⟩
      exact ⟨⟨.barrier operands, pos⟩ :: before, c, pos', after, circuit, rfl, hbefore, hfails⟩
    · rintro ⟨_ | ⟨first, before⟩, c, pos', after, circuit, h, hbefore, hfails⟩
      · cases h
      · obtain ⟨rfl, rfl⟩ := List.cons.inj h
        exact ⟨before, c, pos', after, circuit, rfl, hbefore, hfails⟩
  | ⟨.call c, pos⟩ :: rest => by
    simp only [instantiateBody, bind_eq_error, mapError_eq_error, mapError_eq_ok]
    constructor
    -- the call fails in one of three ways, or something behind it fails
    · rintro (⟨e, hvalues, rfl⟩ | ⟨passed, hvalues, htargets | ⟨targets, htargets,
        ⟨e, hgate, rfl⟩ | ⟨gate, hgate, hrest | ⟨circuit, -, h⟩⟩⟩⟩)
      · exact ⟨[], c, pos, rest, .done, rfl, rfl, .parameter hvalues⟩
      · exact ⟨[], c, pos, rest, .done, rfl, rfl, .operand hvalues htargets⟩
      · exact ⟨[], c, pos, rest, .done, rfl, rfl, .gate hvalues htargets hgate⟩
      · obtain ⟨before, c', pos', after, circuit, rfl, hbefore, hfails⟩ :=
          instantiateBody_eq_error.mp hrest
        exact ⟨⟨.call c, pos⟩ :: before, c', pos', after, _, rfl, instantiateBody_call_eq_ok.mpr
          ⟨passed, targets, gate, circuit, hvalues, htargets, hgate, hbefore, rfl⟩, hfails⟩
      · cases h
    · rintro ⟨_ | ⟨first, before⟩, c', pos', after, circuit, h, hbefore, hfails⟩
      · obtain ⟨hfirst, -⟩ := List.cons.inj h
        cases hfirst
        cases hfails with
        | parameter hvalues => exact .inl ⟨_, hvalues, rfl⟩
        | operand hvalues htargets => exact .inr ⟨_, hvalues, .inl htargets⟩
        | gate hvalues htargets hgate =>
          exact .inr ⟨_, hvalues, .inr ⟨_, htargets, .inl ⟨_, hgate, rfl⟩⟩⟩
      · obtain ⟨rfl, rfl⟩ := List.cons.inj h
        obtain ⟨passed, targets, gate, circuit, hvalues, htargets, hgate, hbefore, -⟩ :=
          instantiateBody_call_eq_ok.mp hbefore
        exact .inr ⟨passed, hvalues, .inr ⟨targets, htargets, .inr ⟨gate, hgate, .inl
          (instantiateBody_eq_error.mpr ⟨before, c', pos', after, circuit, rfl, hbefore, hfails⟩)⟩⟩⟩

end Body

/-! ## Gates -/

/-- Why a gate is not entered, while `active` gates are being instantiated. -/
inductive Refused (table : GateTable) (active : List String) : GateName → List R → RunFault → Prop
  | rotation {parameters : List R} : parameters.length ≠ 3 →
      Refused table active .rotation parameters
        (.sizeMismatch (.rotationParameters parameters.length))
  | undeclared {name : String} {parameters : List R} : table.lookup name = none →
      Refused table active (.named name) parameters (.undefinedGate name)
  | opaqueGate {name : String} {parameters : List R} : table.lookup name = some .sealed →
      Refused table active (.named name) parameters (.opaqueGate name)
  | again {name : String} {parameters : List R} {s : Signature} {body : List BodyStatement} :
      table.lookup name = some (.defined s body) → name ∈ active →
      Refused table active (.named name) parameters (.recursiveGate name)
  | arity {name : String} {parameters : List R} {s : Signature} {body : List BodyStatement} :
      table.lookup name = some (.defined s body) → name ∉ active →
      s.formals.length ≠ parameters.length →
      Refused table active (.named name) parameters
        (.sizeMismatch (.gateParameters name s.formals.length parameters.length))

/-- A call in the body of a gate that is being instantiated: the names of that gate and of those
whose expansion has led to it, its formal arguments, the values of its formal parameters, and the
statement. -/
structure Frame (R : Type) where
  active : List String
  arguments : List String
  bindings : Bindings R
  call : GateCall
  pos : SourcePos

/-- The instantiation of a gate comes to a call of its body: the gate is entered, and the calls
before that one have been instantiated. -/
def Opens (table : GateTable) (active : List String) (gate : GateName) (parameters : List R)
    (f : Frame R) : Prop :=
  ∃ name s before rest circuit, gate = .named name ∧
    table.lookup name = some (.defined s (before ++ ⟨.call f.call, f.pos⟩ :: rest)) ∧
    name ∉ active ∧ s.formals.length = parameters.length ∧
    f.active = name :: active ∧ f.arguments = s.arguments ∧
    f.bindings = .ofLists s.formals parameters ∧
    instantiateBody (table.instantiateWithin f.active) f.arguments f.bindings before = .ok circuit

variable {active : List String} {gate : GateName} {parameters : List R} {error : RunError}

/-- Inside of a gate, fewer gates are left to enter. -/
theorem Opens.pending_lt {f : Frame R} (h : table.Opens active gate parameters f) :
    pending table.names f.active < pending table.names active := by
  obtain ⟨name, s, before, rest, circuit, -, hfound, hnew, -, hactive, -⟩ := h
  rw [hactive]
  exact pending_cons_lt (mem_names hfound) hnew

theorem instantiateWithin_rotation_eq_error :
    table.instantiateWithin active .rotation parameters = .error error ↔ parameters.length ≠ 3 ∧
      error = .bare (.sizeMismatch (.rotationParameters parameters.length)) := by
  unfold instantiateWithin
  constructor
  · intro h
    split at h
    · cases h
    · rename_i hthree
      refine ⟨fun hlength => ?_, (Except.error.inj h).symm⟩
      obtain ⟨theta, phi, lambda, hparameters⟩ := List.length_eq_three.mp hlength
      exact hthree theta phi lambda hparameters
  · rintro ⟨hlength, rfl⟩
    split
    · exact absurd rfl hlength
    · rfl

/-- **A gate is not instantiated** if it cannot be entered, or a call of its body fails. -/
theorem instantiateWithin_eq_error_opens :
    table.instantiateWithin active gate parameters = .error error ↔
      (∃ fault, table.Refused active gate parameters fault ∧ error = .bare fault) ∨
        ∃ f, table.Opens active gate parameters f ∧
          CallFails (table.instantiateWithin f.active) f.arguments f.bindings f.call f.pos
            error := by
  cases gate with
  | rotation =>
    rw [instantiateWithin_rotation_eq_error]
    constructor
    · rintro ⟨hlength, rfl⟩
      exact .inl ⟨_, .rotation hlength, rfl⟩
    · rintro (⟨fault, ⟨hlength⟩, rfl⟩ | ⟨f, ⟨name, s, before, rest, circuit, h, -⟩, -⟩)
      · exact ⟨hlength, rfl⟩
      · cases h
  | controlledNot =>
    rw [instantiateWithin_controlledNot]
    constructor
    · exact nofun
    · rintro (⟨fault, ⟨⟩, -⟩ | ⟨f, ⟨name, s, before, rest, circuit, h, -⟩, -⟩)
      cases h
  | named name =>
    rw [instantiateWithin_named]
    constructor
    · intro h
      split at h
      · rename_i hfound
        exact .inl ⟨_, .undeclared hfound, (Except.error.inj h).symm⟩
      · rename_i hfound
        exact .inl ⟨_, .opaqueGate hfound, (Except.error.inj h).symm⟩
      · rename_i s body hfound
        split at h
        · rename_i hagain
          exact .inl ⟨_, .again hfound hagain, (Except.error.inj h).symm⟩
        rename_i hnew
        split at h
        · rename_i hlength
          exact .inl ⟨_, .arity hfound hnew hlength, (Except.error.inj h).symm⟩
        · rename_i hlength
          obtain ⟨before, c, pos, rest, circuit, rfl, hbefore, hfails⟩ :=
            instantiateBody_eq_error.mp (map_eq_error.mp h)
          exact .inr ⟨⟨name :: active, s.arguments, .ofLists s.formals parameters, c, pos⟩,
            ⟨name, s, before, rest, circuit, rfl, hfound, hnew, not_ne_iff.mp hlength, rfl, rfl,
              rfl, hbefore⟩, hfails⟩
    · rintro (⟨fault, hrefused, rfl⟩ | ⟨f, hopens, hfails⟩)
      · cases hrefused with
        | undeclared hfound => simp only [hfound]
        | opaqueGate hfound => simp only [hfound]
        | again hfound hagain => simp only [hfound, if_pos hagain]
        | arity hfound hnew hlength => simp only [hfound, if_neg hnew, if_pos hlength]
      · obtain ⟨name', s, before, rest, circuit, hname, hfound, hnew, hlength, hactive, harguments,
          hbindings, hbefore⟩ := hopens
        cases hname
        rw [harguments, hbindings, hactive] at hbefore hfails
        have hbody := instantiateBody_eq_error.mpr
          ⟨before, f.call, f.pos, rest, circuit, rfl, hbefore, hfails⟩
        simp only [hfound, if_neg hnew, if_neg (not_not_intro hlength), hbody]
        rfl

/-! ## Expansions -/

/-- The instantiation of a gate comes to a call: one of its body, or one that the instantiation of a
gate called there comes to. -/
inductive Reaches (table : GateTable) : List String → GateName → List R → Frame R → Prop
  | direct {active : List String} {gate : GateName} {parameters : List R} {f : Frame R} :
      table.Opens active gate parameters f → Reaches table active gate parameters f
  | inner {active : List String} {gate : GateName} {parameters passed : List R} {f g : Frame R} :
      table.Opens active gate parameters f → values f.bindings f.call.passed = .ok passed →
      (∀ v ∈ f.call.operands, v.IsFormal f.arguments) →
      Reaches table f.active f.call.gate passed g → Reaches table active gate parameters g

/-- A call in a body fails by itself, and says this: a parameter has no value, an operand is not a
formal argument, or the gate is not entered. -/
inductive Breaks (table : GateTable) (f : Frame R) : RunError → Prop
  | parameter {e sub : Expr} : f.call.Evaluates f.bindings e →
      e.firstFailing f.bindings = some sub →
      Breaks table f ((sub.failure f.bindings).located f.pos)
  | operand {passed : List R} {before after : List Operand} {v : Operand} :
      values f.bindings f.call.passed = .ok passed → f.call.operands = before ++ v :: after →
      (∀ w ∈ before, w.IsFormal f.arguments) → ¬v.IsFormal f.arguments →
      Breaks table f ⟨.undefinedRegister v.text, some v.pos⟩
  | gate {passed : List R} {fault : RunFault} : values f.bindings f.call.passed = .ok passed →
      (∀ v ∈ f.call.operands, v.IsFormal f.arguments) →
      table.Refused f.active f.call.gate passed fault → Breaks table f ⟨fault, some f.pos⟩

/-- A call that fails by itself gives a position, which is kept. -/
theorem Breaks.located {f : Frame R} (h : table.Breaks f error) (pos : SourcePos) :
    error.located pos = error := by
  cases h with
  | parameter _ _ => exact RunError.located_located ..
  | operand _ _ _ _ => rfl
  | gate _ _ _ => rfl

omit [Scalar R] in
theorem mapM_localQubit_eq_error {arguments : List String} {operands : List Operand} :
    operands.mapM (localQubit arguments) = .error error ↔
      ∃ before v after, operands = before ++ v :: after ∧
        (∀ w ∈ before, w.IsFormal arguments) ∧ ¬v.IsFormal arguments ∧
        error = ⟨.undefinedRegister v.text, some v.pos⟩ := by
  simp only [mapM_eq_error, exists_localQubit, localQubit_eq_error]

omit [Scalar R] in
theorem exists_mapM_localQubit {arguments : List String} {operands : List Operand} :
    (∃ targets, operands.mapM (localQubit arguments) = .ok targets) ↔
      ∀ v ∈ operands, v.IsFormal arguments := by
  simp only [exists_mapM_eq_ok, exists_localQubit]

/-- A call in a body fails by itself, or through the gate that it calls. -/
theorem callFails_iff {f : Frame R} :
    CallFails (table.instantiateWithin f.active) f.arguments f.bindings f.call f.pos error ↔
      table.Breaks f error ∨ ∃ passed inner, values f.bindings f.call.passed = .ok passed ∧
        (∀ v ∈ f.call.operands, v.IsFormal f.arguments) ∧
        table.instantiateWithin f.active f.call.gate passed = .error inner ∧
        error = inner.located f.pos := by
  constructor
  · intro h
    cases h with
    | parameter hvalues =>
      obtain ⟨e, sub, he, hsub, rfl⟩ := values_eq_error.mp hvalues
      exact .inl (.parameter he hsub)
    | operand hvalues htargets =>
      obtain ⟨before, v, after, hsplit, hbefore, hv, rfl⟩ := mapM_localQubit_eq_error.mp htargets
      exact .inl (.operand hvalues hsplit hbefore hv)
    | gate hvalues htargets hgate =>
      exact .inr ⟨_, _, hvalues, exists_mapM_localQubit.mp ⟨_, htargets⟩, hgate, rfl⟩
  · rintro (h | ⟨passed, inner, hvalues, hformal, hgate, rfl⟩)
    · cases h with
      | parameter he hsub => exact .parameter (values_eq_error.mpr ⟨_, _, he, hsub, rfl⟩)
      | operand hvalues hsplit hbefore hv =>
        exact .operand hvalues (mapM_localQubit_eq_error.mpr ⟨_, _, _, hsplit, hbefore, hv, rfl⟩)
      | @gate passed fault hvalues hformal hrefused =>
        obtain ⟨targets, htargets⟩ := exists_mapM_localQubit.mpr hformal
        exact .gate hvalues htargets
          (instantiateWithin_eq_error_opens.mpr (.inl ⟨fault, hrefused, rfl⟩))
    · obtain ⟨targets, htargets⟩ := exists_mapM_localQubit.mpr hformal
      exact .gate hvalues htargets hgate

/-- What an expansion reaches and what fails there by itself is what it fails with: by induction on
the bodies that lead there. -/
theorem Reaches.instantiateWithin_eq {f : Frame R} (h : table.Reaches active gate parameters f)
    (hbreaks : table.Breaks f error) :
    table.instantiateWithin active gate parameters = .error error := by
  induction h with
  | direct hopens =>
    exact instantiateWithin_eq_error_opens.mpr (.inr ⟨_, hopens, callFails_iff.mpr (.inl hbreaks)⟩)
  | @inner active gate parameters passed g f hopens hvalues hformal _ ih =>
    exact instantiateWithin_eq_error_opens.mpr (.inr ⟨g, hopens, callFails_iff.mpr
      (.inr ⟨passed, error, hvalues, hformal, ih hbreaks, (hbreaks.located g.pos).symm⟩)⟩)

/-- **Where an expansion fails**: its gate is not entered, which is said without a position, or it
reaches a call that fails by itself. -/
theorem instantiateWithin_eq_error (table : GateTable) (active : List String) (gate : GateName)
    (parameters : List R) (error : RunError) :
    table.instantiateWithin active gate parameters = .error error ↔
      (∃ fault, table.Refused active gate parameters fault ∧ error = .bare fault) ∨
        ∃ f, table.Reaches active gate parameters f ∧ table.Breaks f error := by
  constructor
  · intro h
    rcases instantiateWithin_eq_error_opens.mp h with hrefused | ⟨f, hopens, hfails⟩
    · exact .inl hrefused
    rcases callFails_iff.mp hfails with hbreaks | ⟨passed, inner, hvalues, hformal, hinner, rfl⟩
    · exact .inr ⟨f, .direct hopens, hbreaks⟩
    -- the gate that is called fails: at its entry this call is to blame, and further in another one
    have hpending := hopens.pending_lt
    rcases (instantiateWithin_eq_error table f.active f.call.gate passed inner).mp hinner with
      ⟨fault, hrefused, rfl⟩ | ⟨g, hreaches, hbreaks⟩
    · exact .inr ⟨f, .direct hopens, .gate hvalues hformal hrefused⟩
    · rw [hbreaks.located]
      exact .inr ⟨g, .inner hopens hvalues hformal hreaches, hbreaks⟩
  · rintro (hrefused | ⟨f, hreaches, hbreaks⟩)
    · exact instantiateWithin_eq_error_opens.mpr (.inl hrefused)
    · exact hreaches.instantiateWithin_eq hbreaks
termination_by pending table.names active

end GateTable

end OpenQasm
