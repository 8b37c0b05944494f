import OpenQasm.Proofs.Acceptance
import OpenQasm.Proofs.Breaches

/-!
# Semantic errors are traced to declarations

Both passes stop at the first statement that breaks one of their rules (`FirstBroken`). The error
of the declaration pass stands at that statement. So does the error of the verification pass, or at
a variable or an operation inside the statement, unless the statement is a gate: then it stands in
the first statement of the body that breaks a rule, and is traced to the gate.

* `declareStatement_eq_error`: how a declaration fails, with its name taken or a formal repeated.
* `verifyStatement_eq_error`: how a statement fails.
* **`Program.traced_of_check`**: both passes together.
-/

namespace OpenQasm

/-- After the items `before`, which keep a rule, `a` is the first item that breaks it. The rule may
depend on the items before. -/
structure FirstBroken {α : Type} (rule : List α → α → Prop) (items before : List α) (a : α) :
    Prop where
  split : before ++ [a] <+: items
  kept : ∀ earlier b, earlier ++ [b] <+: before → rule earlier b
  broken : ¬rule before a

theorem firstBroken_of_split {α : Type} {rule : List α → α → Prop} {items before later : List α}
    {a : α} (hsplit : items = before ++ a :: later)
    (hkept : ∀ earlier b, earlier ++ [b] <+: before → rule earlier b) (hbroken : ¬rule before a) :
    FirstBroken rule items before a := by
  refine ⟨⟨later, ?_⟩, hkept, hbroken⟩
  rw [hsplit, List.append_assoc, List.singleton_append]

/-- The rule of the declaration pass. -/
def Declarable (before : List Statement) (s : Statement) : Prop :=
  s.action.Sound ∧ ∀ name ∈ declaredNames [s], name ∉ declaredNames before

/-- What is wrong with a declaration behind some statements. -/
inductive Statement.Misdeclares (before : List Statement) (s : Statement) : SemanticFault → Prop
  | empty {kind : RegisterKind} {name : String} : s.action = .register kind name 0 →
      Misdeclares before s (.emptyRegister name)
  | name {name : String} {kind : SymbolKind} (line : Nat) :
      s.action.declares = some (name, kind) → name ∈ declaredNames before →
      Misdeclares before s (.redeclared name line)
  | formals {signature : Signature} {name : String} (line : Nat) :
      s.action.signature? = some signature →
      2 ≤ (signature.formals ++ signature.arguments).count name →
      Misdeclares before s (.redeclared name line)

/-! ## The declaration pass -/

namespace Check

open SymbolTable

variable {t after : SymbolTable} {id : Nat} {scope root : Scope} {pos : SourcePos}
  {e : SemanticError} {before : List Statement}

theorem declare_eq_error (h : t.At id scope) {name : String} {kind : SymbolKind}
    (hd : declare t name kind pos = (.error e, after)) :
    name ∈ scope.names ∧ ∃ line, e = .found pos (.redeclared name line) := by
  unfold declare at hd
  rw [lookupHere?_eq h] at hd
  cases hf : scope.find? name with
  | some old =>
    rw [hf] at hd
    obtain ⟨rfl⟩ := Except.error.inj (Prod.mk.inj hd).1
    refine ⟨?_, old.line, rfl⟩
    by_contra hname
    rw [Scope.find?_eq_none_iff.mpr hname] at hf
    cases hf
  | none =>
    -- the scope is open, so there is nothing else to fail
    have hnew := declare_eq h ⟨name, pos.line, kind⟩ (Scope.find?_eq_none_iff.mp hf)
    simp only [hf, hnew] at hd
    cases (Prod.mk.inj hd).1

theorem declareFormals_eq_error {kind : Nat → SymbolKind} : ∀ {names : List String}
    {position : Nat} {t : SymbolTable} {scope : Scope}, t.At id scope →
    declareFormals kind pos position names t = (.error e, after) →
    ∃ earlier name later, names = earlier ++ name :: later ∧ name ∈ scope.names ++ earlier ∧
      ∃ line, e = .found pos (.redeclared name line)
  | [], _, _, _, _, hd => nomatch (Prod.mk.inj hd).1
  | name :: names, position, t, scope, h, hd => by
    rw [declareFormals] at hd
    cases hdeclare : declare t name (kind position) pos with
    | mk result bound =>
      rw [hdeclare] at hd
      cases result with
      | error found =>
        obtain rfl := Except.error.inj (Prod.mk.inj hd).1
        obtain ⟨hname, hline⟩ := declare_eq_error h hdeclare
        exact ⟨[], name, names, rfl, List.mem_append_left _ hname, hline⟩
      | ok u =>
        obtain ⟨-, rfl⟩ := (declare_eq_ok h).mp hdeclare
        obtain ⟨earlier, other, later, rfl, hother, hline⟩ :=
          declareFormals_eq_error (h.extend _) hd
        refine ⟨name :: earlier, other, later, rfl, ?_, hline⟩
        rw [Scope.names_append, List.append_assoc] at hother
        exact hother

/-- A gate is not declared when its name is taken or one of its formals is repeated. -/
theorem declareGate_eq_error (h : t.At 0 scope) {s : Signature}
    (hd : declareGate t s pos = (.error e, after)) :
    ∃ name line, e = .found pos (.redeclared name line) ∧
      (name = s.name ∧ name ∈ scope.names ∨ 2 ≤ (s.formals ++ s.arguments).count name) := by
  have hsize : (t.extend 0 [s.symbol pos.line]).scopes.size = t.scopes.size :=
    Array.size_modify
  have hpush := at_push (t.extend 0 [s.symbol pos.line])
  rw [hsize] at hpush
  have hrepeated {earlier later : List String} {name : String} (hname : name ∈ earlier) :
      2 ≤ (earlier ++ name :: later).count name := by
    rw [List.count_append, List.count_cons_self]
    have := List.count_pos_iff.mpr hname
    omega
  unfold declareGate at hd
  split at hd
  · rename_i bound hbound
    obtain ⟨-, rfl⟩ := (declare_eq_ok h).mp hbound
    split at hd
    · rename_i inner hinner
      obtain ⟨-, -, rfl⟩ := (declareFormals_eq_ok hpush).mp hinner
      split at hd
      · cases (Prod.mk.inj hd).1
      · obtain ⟨earlier, name, later, hsplit, hname, line, rfl⟩ :=
          declareFormals_eq_error (hpush.extend _) hd
        refine ⟨name, line, rfl, .inr ?_⟩
        rw [Scope.names_append, map_name_formalSymbols] at hname
        rw [hsplit, ← List.append_assoc]
        exact hrepeated hname
    · obtain ⟨earlier, name, later, hsplit, hname, line, rfl⟩ := declareFormals_eq_error hpush hd
      refine ⟨name, line, rfl, .inr ?_⟩
      rw [hsplit, List.append_assoc]
      exact hrepeated hname
  · obtain ⟨hname, line, rfl⟩ := declare_eq_error h hd
    exact ⟨s.name, line, rfl, .inl ⟨rfl, hname⟩⟩

/-- **A declaration that fails** breaks the rule of the pass, and is reported where it stands. -/
theorem declareStatement_eq_error (h : t.Declares before root) {s : Statement}
    (hd : declareStatement t s = (.error e, after)) :
    ¬Declarable before s ∧ s.Misdeclares before e.fault ∧ e.pos = s.pos ∧ e.trace = [] := by
  have hbroken : ¬Declarable before s := by
    rintro ⟨hsound, hnew⟩
    obtain ⟨declared, hok⟩ := exists_declareStatement h hsound fun name kind hs =>
      hnew name (by rw [declaredNames, globals_singleton, hs]; exact List.mem_singleton_self _)
    cases (Prod.mk.inj (hd.symm.trans hok)).1
  have hgate {signature : Signature} (hs : s.action.signature? = some signature)
      (hdeclares : s.action.declares =
        some (signature.name, .gate signature.formals.length signature.arguments.length))
      (hd : declareGate t signature s.pos = (.error e, after)) :
      s.Misdeclares before e.fault ∧ e.pos = s.pos ∧ e.trace = [] := by
    obtain ⟨name, line, rfl, ⟨rfl, hname⟩ | hrepeated⟩ := declareGate_eq_error h.at_root hd
    · rw [h.names] at hname
      exact ⟨.name line hdeclares hname, rfl, rfl⟩
    · exact ⟨.formals line hs hrepeated, rfl, rfl⟩
  refine ⟨hbroken, ?_⟩
  unfold declareStatement at hd
  cases hs : s.action with
  | register kind name width =>
    rw [hs] at hd
    dsimp only at hd
    split at hd
    · rename_i hwidth
      obtain ⟨rfl⟩ := Except.error.inj (Prod.mk.inj hd).1
      rw [hwidth] at hs
      exact ⟨.empty hs, rfl, rfl⟩
    · obtain ⟨hname, line, rfl⟩ := declare_eq_error h.at_root hd
      rw [h.names] at hname
      exact ⟨.name line (by rw [hs]; rfl) hname, rfl, rfl⟩
  | gate signature body =>
    rw [hs] at hd hgate
    exact hgate rfl rfl hd
  | opaqueGate signature =>
    rw [hs] at hd hgate
    exact hgate rfl rfl hd
  | operation | barrier | conditional =>
    rw [hs] at hd
    cases (Prod.mk.inj hd).1

/-! ## The verification pass -/

/-- A failing statement of the verification pass: an error in the body of a gate is traced to the
gate, and any other one is not traced. -/
structure Traced (env : Env) (s : Statement) (e : SemanticError) : Prop where
  body : ∀ signature body, s.action = .gate signature body → ∃ earlier b,
    FirstBroken (fun _ b => (signature.env env).LegalBody b.action) body earlier b ∧
    b.Breaks (signature.env env) e.pos e.fault ∧ e.pos ∈ b.places ∧ e.trace = [s.pos]
  other : (∀ signature body, s.action ≠ .gate signature body) →
    s.action.Breaks env s.pos e.pos e.fault ∧ e.pos ∈ s.action.places s.pos ∧ e.trace = []

theorem traced_of_breaks {env : Env} {s : Statement}
    (hs : ∀ signature body, s.action ≠ .gate signature body)
    (h : Reports (s.action.Breaks env s.pos) e) : Traced env s e where
  body signature body hb := absurd hb (hs signature body)
  other _ := ⟨h.1, h.1.place_mem, h.2⟩

/-- A gate fails in the first statement of its body that breaks a rule. -/
theorem verifyGate_eq_error {statements : List Statement} (h : t.Declares statements root)
    {signature : Signature} (hs : t.Saves root signature) {body : List BodyStatement}
    (hv : verifyGate t signature body pos = (.error e, after)) : ∃ earlier b,
    FirstBroken (fun _ b => (signature.env t.kinds).LegalBody b.action) body earlier b ∧
    b.Breaks (signature.env t.kinds) e.pos e.fault ∧ e.pos ∈ b.places ∧ e.trace = [pos] := by
  obtain ⟨inner, hrestore, hkinds, -⟩ := h.restore hs
  unfold verifyGate at hv
  rw [hrestore] at hv
  obtain ⟨found, hfound, rfl⟩ := mapError_eq_error.mp (Prod.mk.inj hv).1
  obtain ⟨earlier, b, later, hsplit, hearlier, hb⟩ := forM_eq_error hfound
  obtain ⟨hbreaks, htrace⟩ := ends_checkBodyStatement.error_of_eq hb
  rw [hkinds] at hbreaks
  refine ⟨earlier, b, firstBroken_of_split hsplit ?_ ?_, hbreaks, hbreaks.place_mem, ?_⟩
  · intro before other hinitial
    rw [← hkinds, ← checkBodyStatement_eq_ok]
    exact hearlier other (hinitial.subset (by simp))
  · rw [← hkinds, ← checkBodyStatement_eq_ok, hb]
    nofun
  · rw [SemanticError.within, htrace]
    rfl

/-- **A statement that fails** breaks a rule, and its error is traced. -/
theorem verifyStatement_eq_error {statements : List Statement} (h : t.Declares statements root)
    {s : Statement} (hs : s ∈ statements) (hv : verifyStatement t s = (.error e, after)) :
    ¬t.kinds.LegalAction s.action ∧ Traced t.kinds s e := by
  have hbroken : ¬t.kinds.LegalAction s.action := by
    intro hlegal
    have hok := (verifyStatement_eq_ok h hs).mpr ⟨hlegal, rfl⟩
    cases (Prod.mk.inj (hv.symm.trans hok)).1
  refine ⟨hbroken, ?_⟩
  have hsaves := h.saves s hs
  unfold verifyStatement at hv
  obtain ⟨action, pos⟩ := s
  cases action with
  | register | opaqueGate => cases (Prod.mk.inj hv).1
  | gate signature body =>
    constructor
    · rintro _ _ ⟨⟩
      exact verifyGate_eq_error h (hsaves signature rfl) hv
    · exact fun hother => absurd rfl (hother signature body)
  | operation o =>
    obtain ⟨hbreaks, htrace⟩ := ends_checkOperation.error_of_eq (Prod.mk.inj hv).1
    exact traced_of_breaks nofun ⟨.operation hbreaks, htrace⟩
  | barrier operands =>
    obtain ⟨hbreaks, htrace⟩ := ends_checkBarrier.error_of_eq (Prod.mk.inj hv).1
    exact traced_of_breaks nofun ⟨.barrier hbreaks, htrace⟩
  | conditional register value o operationPos =>
    exact traced_of_breaks nofun (ends_checkConditional.error_of_eq (Prod.mk.inj hv).1)

/-! ## A pass over all statements -/

/-- A pass fails at a statement, behind others that it has passed over. -/
theorem passAll_eq_error {pass : SymbolTable → Statement → Pass} : ∀ {rest : List Statement}
    {t : SymbolTable}, passAll pass t rest = (.error e, after) →
    ∃ earlier s later between left, rest = earlier ++ s :: later ∧
      passAll pass t earlier = (.ok (), between) ∧ pass between s = (.error e, left)
  | [], _, h => nomatch (Prod.mk.inj h).1
  | s :: rest, t, h => by
    rw [passAll] at h
    cases hp : pass t s with
    | mk result next =>
      rw [hp] at h
      cases result with
      | error found =>
        obtain rfl := Except.error.inj (Prod.mk.inj h).1
        exact ⟨[], s, rest, t, next, rfl, rfl, hp⟩
      | ok u =>
        obtain ⟨earlier, other, later, between, left, rfl, hearlier, hother⟩ := passAll_eq_error h
        exact ⟨s :: earlier, other, later, between, left, rfl,
          passAll_cons_eq_ok.mpr ⟨next, hp, hearlier⟩, hother⟩

/-- Sound declarations of distinct names are each declarable behind the ones before. -/
theorem declarable_of_prefix {statements earlier : List Statement} {s : Statement}
    (hsound : ∀ b ∈ statements, b.action.Sound) (hdistinct : (declaredNames statements).Nodup)
    (h : earlier ++ [s] <+: statements) : Declarable earlier s := by
  refine ⟨hsound s (h.subset (by simp)), fun name hs hearlier => ?_⟩
  obtain ⟨later, rfl⟩ := h
  rw [declaredNames_append, declaredNames_append, List.nodup_append'] at hdistinct
  exact (List.nodup_append'.mp hdistinct.1).2.2 hearlier hs

variable {p : Program}

/-- The declaration pass fails at the first statement that is not declarable. -/
theorem of_declareAll_error (h : declareAll globalScope p = (.error e, after)) :
    ∃ before s, FirstBroken Declarable p.statements before s ∧
      s.Misdeclares before e.fault ∧ e.pos = s.pos ∧ e.trace = [] := by
  obtain ⟨before, s, later, between, left, hsplit, hbefore, hs⟩ := passAll_eq_error h
  obtain ⟨hsound, hdistinct, root, hdeclares⟩ :=
    declares_of_passAll declares_globalScope List.nodup_nil hbefore
  rw [List.nil_append] at hdistinct hdeclares
  obtain ⟨hbroken, hmisdeclares⟩ := declareStatement_eq_error hdeclares hs
  refine ⟨before, s, firstBroken_of_split hsplit ?_ hbroken, hmisdeclares⟩
  exact fun _ _ => declarable_of_prefix hsound hdistinct

/-- A declaration pass that ends well has declared every statement. -/
theorem of_declareAll_ok (h : declareAll globalScope p = (.ok (), t)) :
    (∀ before s, before ++ [s] <+: p.statements → Declarable before s) ∧
      ∃ root, t.Declares p.statements root := by
  obtain ⟨hsound, hdistinct, root, hdeclares⟩ :=
    declares_of_passAll declares_globalScope List.nodup_nil h
  rw [List.nil_append] at hdistinct hdeclares
  exact ⟨fun _ _ => declarable_of_prefix hsound hdistinct, root, hdeclares⟩

/-- The verification pass fails at the first statement that is not legal. -/
theorem of_verifyAll_error (h : t.Declares p.statements root)
    (hv : verifyAll t p = (.error e, after)) :
    ∃ before s, FirstBroken (fun _ s => (globalEnv p.statements).LegalAction s.action)
      p.statements before s ∧ Traced (globalEnv p.statements) s e := by
  obtain ⟨before, s, later, between, left, hsplit, hbefore, hs⟩ := passAll_eq_error hv
  have hmem : ∀ b ∈ before ++ [s], b ∈ p.statements := by
    intro b hb
    rw [hsplit]
    simp only [List.mem_append, List.mem_cons, List.not_mem_nil, or_false] at hb ⊢
    tauto
  -- the statements before are legal, and verifying them has left the table as it was
  obtain ⟨hlegal, rfl⟩ := legal_of_passAll h
    (fun b hb => hmem b (List.mem_append_left _ hb)) hbefore
  obtain ⟨hbroken, htraced⟩ := verifyStatement_eq_error h (hmem s (by simp)) hs
  rw [h.kinds] at hlegal hbroken htraced
  refine ⟨before, s, firstBroken_of_split hsplit ?_ hbroken, htraced⟩
  exact fun _ b hinitial => hlegal b (hinitial.subset (by simp))

end Check

namespace Program

variable {p : Program} {e : SemanticError}

/-- **Semantic errors are traced to their enclosing declarations.** A program that is rejected fails
in one of two passes, at the first statement that breaks a rule of the pass.

* The declaration pass: the error says what is wrong with a declaration, stands at that statement,
  and has an empty trace.
* The verification pass, over declarations that are all in order: a construct in the body of a gate
  breaks a rule, in the first statement of the body that does. The error stands there or at a
  variable inside, and its trace is the position of the gate. Otherwise the error stands at the
  statement, at the operation that it guards or at a variable inside, and its trace is empty. -/
theorem traced_of_check (h : p.check = .error e) :
    (∃ before s, FirstBroken Declarable p.statements before s ∧
      s.Misdeclares before e.fault ∧ e.pos = s.pos ∧ e.trace = []) ∨
    (∀ before s, before ++ [s] <+: p.statements → Declarable before s) ∧
      ∃ before s, FirstBroken (fun _ s => (globalEnv p.statements).LegalAction s.action)
        p.statements before s ∧ Check.Traced (globalEnv p.statements) s e := by
  unfold check at h
  cases hd : Check.declareAll Check.globalScope p with
  | mk result declared =>
    rw [hd] at h
    cases result with
    | error found =>
      obtain rfl := Except.error.inj h
      exact .inl (Check.of_declareAll_error hd)
    | ok u =>
      obtain ⟨hdeclarable, root, hdeclares⟩ := Check.of_declareAll_ok hd
      cases hv : Check.verifyAll declared p with
      | mk result left =>
        simp only [hv] at h
        cases result with
        | ok u => cases h
        | error found =>
          obtain rfl := Except.error.inj h
          exact .inr ⟨hdeclarable, Check.of_verifyAll_error hdeclares hv⟩

/-- A program with a parameter that is bound nowhere, in the body of a gate:
```
qreg q[1];
gate g a { barrier a; U(x, 0, 0) a; }
g q[0];
```
-/
def strayParameter : Program where
  file := "stray.qasm"
  version := ⟨20, -1⟩
  includes := []
  statements :=
    [⟨.register .quantum "q" 1, ⟨"stray.qasm", 2, 1⟩⟩,
      ⟨.gate ⟨"g", none, ["a"]⟩
        [⟨.barrier [⟨"a", none, ⟨"stray.qasm", 3, 20⟩⟩], ⟨"stray.qasm", 3, 12⟩⟩,
          ⟨.call ⟨.rotation,
            some [.operand ⟨"x", none, ⟨"stray.qasm", 3, 25⟩⟩,
              .integer 0 ⟨"stray.qasm", 3, 28⟩, .integer 0 ⟨"stray.qasm", 3, 31⟩],
            [⟨"a", none, ⟨"stray.qasm", 3, 34⟩⟩]⟩, ⟨"stray.qasm", 3, 23⟩⟩],
        ⟨"stray.qasm", 3, 1⟩⟩,
      ⟨.operation (.call ⟨.named "g", none, [⟨"q", some 0, ⟨"stray.qasm", 4, 3⟩⟩]⟩),
        ⟨"stray.qasm", 4, 1⟩⟩]

/-- The error stands at the parameter, and is traced to the gate. -/
theorem traced_strayParameter :
    let e : SemanticError :=
      ⟨.undefinedVariable "x", ⟨"stray.qasm", 3, 25⟩, [⟨"stray.qasm", 3, 1⟩]⟩
    strayParameter.check = .error e ∧ ∃ before s,
      FirstBroken (fun _ s => (globalEnv strayParameter.statements).LegalAction s.action)
        strayParameter.statements before s ∧
      Check.Traced (globalEnv strayParameter.statements) s e := by
  intro e
  have hcheck : strayParameter.check = .error e := by decide +kernel
  refine ⟨hcheck, ?_⟩
  rcases traced_of_check hcheck with ⟨_, _, _, _, _, htrace⟩ | ⟨-, htraced⟩
  · cases htrace
  · exact htraced

end Program

end OpenQasm
