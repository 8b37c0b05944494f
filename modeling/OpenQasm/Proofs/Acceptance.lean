import OpenQasm.Proofs.Agreement
import OpenQasm.Proofs.Names

/-!
# The checker accepts the well formed programs, and no others

`Accepted` shows that what both passes let through is well formed. Here is the converse, pass by
pass, and what follows from the two together.

* `exists_declareAll`: sound declarations with names of their own are all granted. The table that
  the pass has filled so far is known from `Declares`, so one statement is enough.
* `passAll_verify`: legal statements are verified, and the table stays as it is.
* **`Program.accepted_iff_wellFormed`**: a program is accepted exactly when it is well formed.
* `Program.WellFormed.of_perm`: the order of the statements does not matter.

Resolving the variables of an expression is not enough (`Env.legalExpr_iff`): all variables of
`wholeRegister` resolve, and it is rejected, since it adds a number to a whole register.
-/

namespace OpenQasm

namespace Check

open SymbolTable

variable {t : SymbolTable} {before : List Statement} {root : Scope}

/-! ## The declaration pass -/

/-- A gate whose name is new and whose formals differ is declared. -/
theorem exists_declareGate (h : t.Declares before root) {signature : Signature} {pos : SourcePos}
    (hnodup : (signature.formals ++ signature.arguments).Nodup)
    (hnew : signature.name ∉ declaredNames before) :
    ∃ after, declareGate t signature pos = (.ok (), after) := by
  rw [← h.names] at hnew
  exact ⟨_, (declareGate_eq_ok h.at_root).mpr ⟨hnew, hnodup, rfl⟩⟩

/-- **A sound declaration of a new name is granted.** -/
theorem exists_declareStatement (h : t.Declares before root) {s : Statement}
    (hsound : s.action.Sound)
    (hnew : ∀ name kind, s.action.declares = some (name, kind) → name ∉ declaredNames before) :
    ∃ after, declareStatement t s = (.ok (), after) := by
  unfold declareStatement
  cases hs : s.action with
  | register kind name width =>
    rw [hs] at hsound hnew
    have hname := hnew name _ rfl
    rw [← h.names] at hname
    have hwidth : ¬width = 0 := hsound
    simp only [if_neg hwidth]
    exact ⟨_, (declare_eq_ok h.at_root).mpr ⟨hname, rfl⟩⟩
  | gate signature body =>
    rw [hs] at hsound hnew
    exact exists_declareGate h hsound (hnew _ _ rfl)
  | opaqueGate signature =>
    rw [hs] at hsound hnew
    exact exists_declareGate h hsound (hnew _ _ rfl)
  | operation o => exact ⟨t, rfl⟩
  | barrier operands => exact ⟨t, rfl⟩
  | conditional register value o pos => exact ⟨t, rfl⟩

/-- **The declaration pass**: sound declarations are all granted when no name is declared twice. -/
theorem exists_declareAll {rest : List Statement} (h : t.Declares before root)
    (hsound : ∀ s ∈ rest, s.action.Sound) (hdistinct : (declaredNames (before ++ rest)).Nodup) :
    ∃ after, passAll declareStatement t rest = (.ok (), after) := by
  induction rest generalizing before t root with
  | nil => exact ⟨t, rfl⟩
  | cons s rest ih =>
    obtain ⟨hs, hrest⟩ := List.forall_mem_cons.mp hsound
    have hnew : ∀ name kind, s.action.declares = some (name, kind) →
        name ∉ declaredNames before := by
      intro name kind hd hbefore
      rw [declaredNames_append, List.nodup_append'] at hdistinct
      refine hdistinct.2.2 hbefore (List.mem_map.mpr ⟨(name, kind), ?_, rfl⟩)
      exact mem_globals List.mem_cons_self hd
    obtain ⟨next, hnext⟩ := exists_declareStatement h hs hnew
    obtain ⟨-, -, _, hdeclares⟩ := declares_of_declareStatement h hnext
    rw [List.append_cons] at hdistinct
    obtain ⟨after, hafter⟩ := ih hdeclares hrest hdistinct
    exact ⟨after, passAll_cons_eq_ok.mpr ⟨next, hnext, hafter⟩⟩

/-! ## The verification pass -/

/-- **The verification pass**: legal statements are verified, and the table stays as it is. -/
theorem passAll_verify {statements rest : List Statement} (h : t.Declares statements root)
    (hmem : ∀ s ∈ rest, s ∈ statements) (hlegal : ∀ s ∈ rest, t.kinds.LegalAction s.action) :
    passAll verifyStatement t rest = (.ok (), t) := by
  induction rest with
  | nil => rfl
  | cons s rest ih =>
    obtain ⟨hs, hrest⟩ := List.forall_mem_cons.mp hmem
    obtain ⟨hl, hlrest⟩ := List.forall_mem_cons.mp hlegal
    exact passAll_cons_eq_ok.mpr
      ⟨t, (verifyStatement_eq_ok h hs).mpr ⟨hl, rfl⟩, ih hrest hlrest⟩

end Check

/-! ## Both passes -/

namespace Program

variable {p q : Program}

/-- Well formed programs are accepted. -/
theorem WellFormed.exists_check (hp : p.WellFormed) : ∃ t, p.check = .ok t := by
  obtain ⟨declared, hd⟩ :=
    Check.exists_declareAll SymbolTable.declares_globalScope hp.sound hp.distinct
  obtain ⟨-, -, root, hdeclares⟩ :=
    Check.declares_of_passAll SymbolTable.declares_globalScope List.nodup_nil hd
  rw [List.nil_append] at hdeclares
  have hlegal := hp.legal
  rw [← hdeclares.kinds] at hlegal
  have hv := Check.passAll_verify hdeclares (fun _ hs => hs) hlegal
  refine ⟨declared, ?_⟩
  simp only [check, Check.declareAll, Check.verifyAll, hd, hv]

/-- **A program is accepted exactly when it is well formed**: its declarations are sound, no name is
declared twice, and every statement is legal in the environment of all declarations, those of a
gate's body behind its formals. -/
theorem accepted_iff_wellFormed (p : Program) : (∃ t, p.check = .ok t) ↔ p.WellFormed :=
  ⟨fun ⟨_, h⟩ => wellFormed_of_check h, WellFormed.exists_check⟩

/-! ## The order of the statements -/

/-- The environment of distinct declarations does not depend on their order. -/
theorem globalEnv_of_perm {xs ys : List Statement} (hperm : xs.Perm ys)
    (hdistinct : (declaredNames xs).Nodup) : globalEnv ys = globalEnv xs := by
  have hglobals : (globals xs).Perm (globals ys) := hperm.filterMap _
  funext name
  unfold globalEnv
  cases hx : (globals xs).lookup name with
  | some kind =>
    refine lookup_of_mem ?_ (hglobals.mem_iff.mp (mem_of_lookup hx))
    exact (hglobals.map Prod.fst).nodup_iff.mp hdistinct
  | none =>
    rw [List.lookup_eq_none_iff] at hx ⊢
    intro binding hb
    exact hx binding (hglobals.mem_iff.mpr hb)

/-- **The order of the statements does not matter**: a program stays well formed when they are put
into another one. -/
theorem WellFormed.of_perm (hp : p.WellFormed) (hperm : p.statements.Perm q.statements) :
    q.WellFormed where
  sound s hs := hp.sound s (hperm.mem_iff.mpr hs)
  distinct := ((hperm.filterMap _).map Prod.fst).nodup_iff.mp hp.distinct
  legal s hs := by
    rw [globalEnv_of_perm hperm hp.distinct]
    exact hp.legal s (hperm.mem_iff.mpr hs)

end Program

/-! ## Variables and arithmetic -/

/-- Arithmetic in an expression is done with numbers. -/
def Env.Arithmetic (env : Env) : Expr → Prop
  | .real .. | .integer .. | .pi _ | .operand _ => True
  | .neg target _ => Arithmetic env target
  | .binary _ left right =>
    Arithmetic env left ∧ Arithmetic env right ∧ env.Number left ∧ env.Number right
  | .call _ target _ => Arithmetic env target ∧ env.Number target

/-- An expression is legal when its variables resolve and its arithmetic is done with numbers. -/
theorem Env.legalExpr_iff (env : Env) (e : Expr) :
    env.LegalExpr e ↔ (∀ v ∈ e.variables, ∃ kind, env.Names v kind) ∧ env.Arithmetic e := by
  induction e with
  | real | integer | pi | operand => simp [LegalExpr, Expr.variables, Arithmetic]
  | neg target pos ih => simpa [LegalExpr, Expr.variables, Arithmetic] using ih
  | binary op left right ihl ihr =>
    simp only [LegalExpr, Expr.variables, Arithmetic, List.forall_mem_append, ihl, ihr]
    tauto
  | call function target pos ih =>
    simp only [LegalExpr, Expr.variables, Arithmetic, ih]
    tauto

/-- A program that adds a number to a whole register:
```
qreg q[1];
U(q + 1, 0, 0) q[0];
```
-/
def wholeRegister : Program where
  file := "whole.qasm"
  version := ⟨20, -1⟩
  includes := []
  statements :=
    [⟨.register .quantum "q" 1, ⟨"whole.qasm", 2, 1⟩⟩,
      ⟨.operation (.call ⟨.rotation,
        some [.binary .add (.operand ⟨"q", none, ⟨"whole.qasm", 3, 3⟩⟩)
            (.integer 1 ⟨"whole.qasm", 3, 7⟩),
          .integer 0 ⟨"whole.qasm", 3, 10⟩, .integer 0 ⟨"whole.qasm", 3, 13⟩],
        [⟨"q", some 0, ⟨"whole.qasm", 3, 16⟩⟩]⟩), ⟨"whole.qasm", 3, 1⟩⟩]

/-- **Resolving the variables of an expression is not enough**: declarations, counts, operands and
all variables are in order here, and the program is rejected for its arithmetic. -/
theorem rejected_wholeRegister :
    (∀ s ∈ wholeRegister.statements, s.action.Sound) ∧
      (declaredNames wholeRegister.statements).Nodup ∧
      (∀ c pos, ⟨.operation (.call c), pos⟩ ∈ wholeRegister.statements →
        (globalEnv wholeRegister.statements).Takes c.gate c.passed.length c.operands.length ∧
        (∀ e ∈ c.passed, ∀ v ∈ e.variables,
          ∃ kind, (globalEnv wholeRegister.statements).Names v kind) ∧
        ∀ v ∈ c.operands, (globalEnv wholeRegister.statements).Qubit v) ∧
      wholeRegister.check = .error (.found ⟨"whole.qasm", 3, 3⟩
        (.vectorOperand "Addition" (.operand ⟨"q", none, ⟨"whole.qasm", 3, 3⟩⟩))) := by
  have henv : globalEnv wholeRegister.statements "q" = some (.register .quantum 1) := rfl
  refine ⟨?_, by decide, ?_, by decide +kernel⟩
  · intro s hs
    simp only [wholeRegister, List.mem_cons, List.not_mem_nil, or_false] at hs
    rcases hs with rfl | rfl
    · exact Nat.one_ne_zero
    · trivial
  · intro c pos hc
    simp only [wholeRegister, List.mem_cons, List.not_mem_nil, or_false] at hc
    rcases hc with hc | hc
    · cases hc
    · cases hc
      refine ⟨⟨rfl, rfl⟩, ?_, ?_⟩
      · intro e he v hv
        simp only [GateCall.passed, Option.getD_some, List.mem_cons, List.not_mem_nil, or_false]
          at he
        rcases he with rfl | rfl | rfl
        · obtain rfl := List.mem_singleton.mp hv
          exact ⟨_, henv, nofun⟩
        · cases hv
        · cases hv
      · intro v hv
        obtain rfl := List.mem_singleton.mp hv
        refine ⟨_, ⟨henv, ?_⟩, rfl⟩
        rintro _ ⟨⟩
        exact Nat.zero_lt_one

end OpenQasm
