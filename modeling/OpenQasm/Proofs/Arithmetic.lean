import OpenQasm.Proofs.Acceptance

/-!
# What arithmetic is done with

An expression that is accepted does arithmetic with numbers, as far as the check looks: at what each
operator and each function is applied to (`Expr.inputs`), when this is a variable. A variable behind
a sign is an input as well, and nothing is asked of it but that it resolves, so that arithmetic is
done with qubits and with whole registers behind a sign.

* `Expr.mem_computed`: every variable below an operator or a function is one of its inputs, or of
  those inside of it, once the signs are taken away.
* `Env.arithmetic_iff`: what is asked of the inputs.
* **`arithmetic_unless_negated`**: the expressions that are accepted, and those of them in which no
  arithmetic is done with qubits and whole registers.
* `negatedQubit_accepted`: a program that multiplies a qubit.
-/

namespace OpenQasm

namespace Expr

/-- An expression without the signs in front of it. -/
def unsigned : Expr → Expr
  | .neg target _ => target.unsigned
  | e => e

/-- What the operators and the functions of an expression are applied to, at any depth. -/
def inputs : Expr → List Expr
  | .real .. | .integer .. | .pi _ | .operand _ => []
  | .neg target _ => target.inputs
  | .binary _ left right => left :: right :: (left.inputs ++ right.inputs)
  | .call _ target _ => target :: target.inputs

/-- The variables that occur below an operator or a function, at any depth. -/
def computed : Expr → List Operand
  | .real .. | .integer .. | .pi _ | .operand _ => []
  | .neg target _ => target.computed
  | .binary _ left right => left.variables ++ right.variables
  | .call _ target _ => target.variables

variable {e : Expr} {v : Operand}

/-- A variable stands alone, behind signs at most, or below an operator or a function. -/
theorem mem_variables : v ∈ e.variables ↔ e.unsigned = .operand v ∨ v ∈ e.computed := by
  induction e with
  | real | integer | pi => simp [Expr.variables, unsigned, computed]
  | operand w => simp [Expr.variables, unsigned, computed, eq_comm]
  | neg target pos ih => exact ih
  | binary | call => simp [Expr.variables, unsigned, computed]

/-- **The variables below operators and functions** are their inputs, up to signs. -/
theorem mem_computed : v ∈ e.computed ↔ ∃ a ∈ e.inputs, a.unsigned = .operand v := by
  induction e with
  | real | integer | pi | operand => simp [computed, inputs]
  | neg target pos ih => exact ih
  | binary op left right ihl ihr =>
    simp only [computed, inputs, List.mem_append, List.mem_cons, mem_variables, ihl, ihr]
    constructor
    · rintro ((h | ⟨a, ha, h⟩) | (h | ⟨a, ha, h⟩))
      · exact ⟨left, .inl rfl, h⟩
      · exact ⟨a, .inr (.inr (.inl ha)), h⟩
      · exact ⟨right, .inr (.inl rfl), h⟩
      · exact ⟨a, .inr (.inr (.inr ha)), h⟩
    · rintro ⟨a, rfl | rfl | ha | ha, h⟩
      · exact .inl (.inl h)
      · exact .inr (.inl h)
      · exact .inl (.inr ⟨a, ha, h⟩)
      · exact .inr (.inr ⟨a, ha, h⟩)
  | call function target pos ih =>
    simp only [computed, inputs, List.mem_cons, mem_variables, ih]
    constructor
    · rintro (h | ⟨a, ha, h⟩)
      · exact ⟨target, .inl rfl, h⟩
      · exact ⟨a, .inr ha, h⟩
    · rintro ⟨a, rfl | ha, h⟩
      · exact .inl h
      · exact .inr ⟨a, ha, h⟩

/-- What is a variable once the signs are taken away has a sign, or is one. -/
theorem eq_operand_or_neg (h : e.unsigned = .operand v) :
    e = .operand v ∨ ∃ target pos, e = .neg target pos ∧ target.unsigned = .operand v := by
  cases e with
  | neg target pos => exact .inr ⟨target, pos, rfl, h⟩
  | real | integer | pi | operand | binary | call => exact .inl h

end Expr

namespace Env

variable {env : Env}

/-- A variable that no arithmetic should be done with: a qubit, or a whole register. -/
def Unfit (env : Env) (v : Operand) : Prop :=
  env.Qubit v ∨ v.index = none ∧ ∃ kind width, env.Names v (.register kind width)

/-- **Arithmetic is done with numbers** when every input that is a variable is a number. -/
theorem arithmetic_iff {e : Expr} : env.Arithmetic e ↔ ∀ a ∈ e.inputs, env.Number a := by
  induction e with
  | real | integer | pi | operand => simp [Arithmetic, Expr.inputs]
  | neg target pos ih => exact ih
  | binary op left right ihl ihr =>
    simp only [Arithmetic, Expr.inputs, List.forall_mem_cons, List.forall_mem_append, ihl, ihr]
    tauto
  | call function target pos ih =>
    simp only [Arithmetic, Expr.inputs, List.forall_mem_cons, ih]
    tauto

theorem Number.not_unfit {v : Operand} (h : env.Number (.operand v)) : ¬env.Unfit v := by
  obtain ⟨kind, hkind, hscalar, hclassical⟩ := h
  rintro (⟨other, hother, hqubit⟩ | ⟨hindex, register, width, hother⟩)
  · obtain rfl := Check.kind_unique hkind hother
    rw [hclassical] at hqubit
    cases hqubit
  · obtain rfl := Check.kind_unique hkind hother
    rw [isScalar, Operand.isIndexed, hindex] at hscalar
    cases hscalar

end Env

namespace Check

/-- **Arithmetic is done with numbers, unless qubits are negated.** An expression is accepted
exactly when all its variables resolve and the operators and functions in it, at any depth, are
applied to numbers where they are applied to variables. So in an accepted expression they are never
applied to a qubit or a whole register directly; and neither occurs anywhere below them if and only
if none is negated in what they are applied to. -/
theorem arithmetic_unless_negated (t : SymbolTable) (e : Expr) :
    (checkExpr t e = .ok () ↔
      (∀ v ∈ e.variables, ∃ kind, t.kinds.Names v kind) ∧ ∀ a ∈ e.inputs, t.kinds.Number a) ∧
    (checkExpr t e = .ok () →
      (∀ v, .operand v ∈ e.inputs → ¬t.kinds.Unfit v) ∧
      ((∀ v ∈ e.computed, ¬t.kinds.Unfit v) ↔
        ∀ target pos v, .neg target pos ∈ e.inputs → target.unsigned = .operand v →
          ¬t.kinds.Unfit v)) := by
  have haccepted : checkExpr t e = .ok () ↔
      (∀ v ∈ e.variables, ∃ kind, t.kinds.Names v kind) ∧ ∀ a ∈ e.inputs, t.kinds.Number a := by
    rw [checkExpr_eq_ok, Env.legalExpr_iff, Env.arithmetic_iff]
  refine ⟨haccepted, fun h => ?_⟩
  obtain ⟨-, hnumbers⟩ := haccepted.mp h
  have hdirect : ∀ v, .operand v ∈ e.inputs → ¬t.kinds.Unfit v := fun v hv =>
    (hnumbers _ hv).not_unfit
  refine ⟨hdirect, fun hall target pos v hneg hv => ?_, fun hnegated v hv => ?_⟩
  · exact hall v (Expr.mem_computed.mpr ⟨_, hneg, hv⟩)
  · obtain ⟨a, ha, hav⟩ := Expr.mem_computed.mp hv
    rcases Expr.eq_operand_or_neg hav with rfl | ⟨target, pos, rfl, htarget⟩
    · exact hdirect v ha
    · exact hnegated target pos v ha htarget

/-- In `-theta * sin(c[0])`, where `theta` is a parameter and `c` a classical register, all
arithmetic is done with numbers: so it is behind the function, and the parameter is no qubit. -/
theorem arithmetic_unless_negated_theta :
    let t : SymbolTable :=
      ⟨#[⟨[⟨"c", 2, .register .classical 2⟩, ⟨"theta", 3, .parameter 0⟩], none, []⟩], some 0⟩
    let theta : Operand := ⟨"theta", none, ⟨"t.qasm", 3, 4⟩⟩
    let bit : Operand := ⟨"c", some 0, ⟨"t.qasm", 3, 16⟩⟩
    let e : Expr := .binary .mul (.neg (.operand theta) ⟨"t.qasm", 3, 3⟩)
      (.call .sin (.operand bit) ⟨"t.qasm", 3, 12⟩)
    checkExpr t e = .ok () ∧ ¬t.kinds.Unfit bit ∧ ∀ v ∈ e.computed, ¬t.kinds.Unfit v := by
  intro t theta bit e
  have hok : checkExpr t e = .ok () := by decide +kernel
  obtain ⟨hdirect, hall⟩ := (arithmetic_unless_negated t e).2 hok
  have htheta : t.kinds "theta" = some (.parameter 0) := by decide +kernel
  refine ⟨hok, hdirect bit (by simp [e, Expr.inputs]), hall.mpr fun target pos v hneg hv => ?_⟩
  have htarget : target = .operand theta := by
    simp only [e, Expr.inputs, List.nil_append, List.mem_cons,
      List.not_mem_nil, or_false] at hneg
    rcases hneg with h | h | h
    · exact (Expr.neg.inj h).1
    · cases h
    · cases h
  obtain rfl : theta = v := by
    rw [htarget] at hv
    exact Expr.operand.inj hv
  rintro (⟨kind, hkind, hqubit⟩ | ⟨-, kind, width, hkind⟩)
  · obtain rfl := Option.some.inj (htheta.symm.trans hkind.1)
    cases hqubit
  · cases htheta.symm.trans hkind.1

end Check

/-- A program that multiplies a qubit:
```
qreg q[1];
U(-q[0] * 2, 0, 0) q[0];
```
-/
def negatedQubit : Program where
  file := "negated.qasm"
  version := ⟨20, -1⟩
  includes := []
  statements :=
    [⟨.register .quantum "q" 1, ⟨"negated.qasm", 2, 1⟩⟩,
      ⟨.operation (.call ⟨.rotation,
        some [.binary .mul
            (.neg (.operand ⟨"q", some 0, ⟨"negated.qasm", 3, 4⟩⟩) ⟨"negated.qasm", 3, 3⟩)
            (.integer 2 ⟨"negated.qasm", 3, 11⟩),
          .integer 0 ⟨"negated.qasm", 3, 14⟩, .integer 0 ⟨"negated.qasm", 3, 17⟩],
        [⟨"q", some 0, ⟨"negated.qasm", 3, 20⟩⟩]⟩), ⟨"negated.qasm", 3, 1⟩⟩]

/-- **A qubit behind a sign is let through**: the program is accepted, and a qubit occurs below the
multiplication. -/
theorem negatedQubit_accepted :
    ∃ t, negatedQubit.check = .ok t ∧
      ∃ c pos e v, ⟨.operation (.call c), pos⟩ ∈ negatedQubit.statements ∧ e ∈ c.passed ∧
        v ∈ e.computed ∧ t.kinds.Qubit v := by
  refine ⟨(Check.declareAll Check.globalScope negatedQubit).2, by decide +kernel, _, _, _,
    ⟨"q", some 0, ⟨"negated.qasm", 3, 4⟩⟩, List.mem_cons_of_mem _ List.mem_cons_self,
    List.mem_cons_self, List.mem_cons_self, .register .quantum 1, ⟨by decide +kernel, ?_⟩, rfl⟩
  rintro _ ⟨⟩
  exact Nat.zero_lt_one

end OpenQasm
