import OpenQasm.Proofs.Grammar

/-!
# What lexemes can still become

Lexemes are viable for a nonterminal when something that it derives starts with them. What is viable
for a part of a rule is viable for the rule, behind what stands before the part, since the rest of
the rule can always be filled in: every nonterminal derives something.

* `Viable.of_start`, `Viable.within`: the start of what a rule derives, and a part of a rule.
* `isOperand_some`, ... `isOperation_some`: what a rule is filled in with.
* `endless_of_isProgram`: nothing that is derived contains the end of a file.
-/

namespace OpenQasm.Grammar

variable {α β : Type} {xs ys zs full : List Lexeme}

/-! ## Prefixes of what is derived -/

/-- Something that is derived starts with these lexemes. -/
def Viable (derived : List Lexeme → α → Prop) (xs : List Lexeme) : Prop :=
  ∃ ys a, derived (xs ++ ys) a

namespace Viable

variable {derived inner : List Lexeme → α → Prop} {outer : List Lexeme → β → Prop} {a : α}

theorem of_start (h : derived full a) (hstart : xs <+: full) : Viable derived xs := by
  obtain ⟨ys, rfl⟩ := hstart
  exact ⟨ys, a, h⟩

/-- A part of a rule, in front of what the rule goes on with. -/
theorem within (h : Viable inner xs)
    (hrule : ∀ {ys a}, inner (xs ++ ys) a → ∃ full b, outer full b ∧ zs <+: full) :
    Viable outer zs := by
  obtain ⟨ys, a, hinner⟩ := h
  obtain ⟨full, b, hfull, hstart⟩ := hrule hinner
  exact of_start hfull hstart

end Viable

/-! ## Every nonterminal derives something -/

theorem isName_some : IsName [⟨.identifier "x", default⟩] "x" := .name

theorem isOperand_some : IsOperand [⟨.identifier "x", default⟩] ⟨"x", none, default⟩ := .whole

theorem isExpr_some (level : Level) : IsExpr level [⟨.keyword .pi, default⟩] (.pi default) := by
  have hpower : IsExpr .power [⟨.keyword .pi, default⟩] (.pi default) := .atom .pi
  cases level with
  | sum => exact .product (.unary (.power hpower))
  | product => exact .unary (.power hpower)
  | unary => exact .power hpower
  | power => exact hpower
  | atom => exact .pi

theorem isCall_some : IsCall [⟨.identifier "x", default⟩, ⟨.identifier "x", default⟩]
    ⟨.named "x", none, [⟨"x", none, default⟩]⟩ := .named .absent (.single isOperand_some)

theorem isOperation_some : IsOperation [⟨.keyword .reset, default⟩, ⟨.identifier "x", default⟩,
    ⟨.mark .semicolon, default⟩] (.reset ⟨"x", none, default⟩) := .reset isOperand_some

theorem isSignature_some : IsSignature [⟨.identifier "x", default⟩, ⟨.identifier "x", default⟩]
    ⟨"x", none, ["x"]⟩ := .signature .absent (.single isName_some)

/-! ## Nothing contains the end of a file -/

/-- None of the lexemes is the end of a file. -/
def Endless (xs : List Lexeme) : Prop := ∀ l ∈ xs, l.token ≠ .endOfFile

@[simp] theorem endless_nil : Endless [] := fun _ hl => absurd hl List.not_mem_nil

@[simp] theorem endless_cons {l : Lexeme} :
    Endless (l :: xs) ↔ l.token ≠ .endOfFile ∧ Endless xs := List.forall_mem_cons

@[simp] theorem endless_append : Endless (xs ++ ys) ↔ Endless xs ∧ Endless ys :=
  List.forall_mem_append

section Items

variable {item : List Lexeme → α → Prop} (hitem : ∀ {xs a}, item xs a → Endless xs)

include hitem

theorem endless_of_isMany {as : List α} (h : IsMany item xs as) : Endless xs := by
  induction h with
  | nil => exact endless_nil
  | cons hx _ ih => exact endless_append.mpr ⟨hitem hx, ih⟩

theorem endless_of_isList {as : List α} (h : IsList item xs as) : Endless xs := by
  induction h with
  | single hx => exact hitem hx
  | cons hx _ ih => simp [hitem hx, ih]

end Items

theorem endless_of_isOptional {list : List Lexeme → List α → Prop}
    (hlist : ∀ {xs as}, list xs as → Endless xs) {as : Option (List α)}
    (h : IsOptional list xs as) : Endless xs := by
  cases h with
  | absent => exact endless_nil
  | empty => simp
  | items hx => simp [hlist hx]

theorem endless_of_isName {x : String} (h : IsName xs x) : Endless xs := by
  cases h
  simp

theorem endless_of_isOperand {v : Operand} (h : IsOperand xs v) : Endless xs := by
  cases h <;> simp

theorem endless_of_isExpr {level : Level} {e : Expr} (h : IsExpr level xs e) : Endless xs := by
  induction h with
  | operand hv => exact endless_of_isOperand hv
  | _ => simp_all

theorem endless_of_isOperands {vs : List Operand} (h : IsList IsOperand xs vs) : Endless xs :=
  endless_of_isList endless_of_isOperand h

theorem endless_of_isExprs {es : List Expr} (h : IsList (IsExpr .sum) xs es) : Endless xs :=
  endless_of_isList endless_of_isExpr h

theorem endless_of_isCall {c : GateCall} (h : IsCall xs c) : Endless xs := by
  cases h with
  | rotation hps hos => simp [endless_of_isExprs hps, endless_of_isOperands hos]
  | controlledNot hps hos | named hps hos =>
    simp [endless_of_isOptional endless_of_isExprs hps, endless_of_isOperands hos]

theorem endless_of_isOperation {o : Operation} (h : IsOperation xs o) : Endless xs := by
  cases h with
  | measure hxs hys => simp [endless_of_isOperand hxs, endless_of_isOperand hys]
  | reset hxs => simp [endless_of_isOperand hxs]
  | call hxs => simp [endless_of_isCall hxs]

theorem endless_of_isSignature {s : Signature} (h : IsSignature xs s) : Endless xs := by
  obtain ⟨hxs, hys⟩ := h
  simp [endless_of_isOptional (endless_of_isList endless_of_isName) hxs,
    endless_of_isList endless_of_isName hys]

theorem endless_of_isBodyStatement {s : BodyStatement} (h : IsBodyStatement xs s) :
    Endless xs := by
  cases h with
  | barrier hxs => simp [endless_of_isOperands hxs]
  | call hxs => exact endless_append.mpr ⟨endless_of_isCall hxs, by simp⟩

theorem endless_of_isAction {a : Action} (h : IsAction xs a) : Endless xs := by
  cases h with
  | qreg | creg => simp
  | gate hxs hys =>
    simp [endless_of_isSignature hxs, endless_of_isMany endless_of_isBodyStatement hys]
  | opaqueGate hxs => simp [endless_of_isSignature hxs]
  | barrier hxs => simp [endless_of_isOperands hxs]
  | conditional hxs hys hzs =>
    have hguarded := endless_cons.mp (endless_of_isOperation hzs)
    simp [endless_of_isOperand hxs, endless_of_isExpr hys, hguarded]
  | operation hxs => exact endless_of_isOperation hxs

theorem endless_of_isStatement {s : Statement} (h : IsStatement xs s) : Endless xs := by
  obtain ⟨h⟩ := h
  exact endless_of_isAction h

theorem endless_of_isHeader {version : Decimal} (h : IsHeader xs version) : Endless xs := by
  cases h <;> simp

theorem endless_of_isInclude {a : Include} (h : IsInclude xs a) : Endless xs := by
  cases h
  simp

/-- **Nothing that is derived contains the end of a file.** -/
theorem endless_of_isProgram {required : Bool} {file : String} {p : Program}
    (h : IsProgram required file xs p) : Endless xs := by
  cases h with
  | headed hxs hys hzs =>
    simp [endless_of_isHeader hxs, endless_of_isMany endless_of_isInclude hys,
      endless_of_isMany endless_of_isStatement hzs]
  | bare _ hys hzs =>
    simp [endless_of_isMany endless_of_isInclude hys, endless_of_isMany endless_of_isStatement hzs]

end OpenQasm.Grammar
