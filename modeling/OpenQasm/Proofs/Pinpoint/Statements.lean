import OpenQasm.Proofs.Pinpoint.Expressions
import OpenQasm.Proofs.Statements

/-!
# Where reading a statement fails

A statement is told by its first lexeme, and the reader that is then taken pinpoints its errors. The
body of a gate answers in its own words for a lexeme that starts no statement of a body. Such a
lexeme stands behind whole statements, so the error is about the first lexeme that cannot follow
here as well.
-/

namespace OpenQasm.Parse

open Grammar

variable {α : Type} {ts : List Lexeme} {p : SourcePos}

/-! ## The semicolon -/

/-- A step, and a semicolon behind what it takes. -/
def semicolonAfter (f : Reader α) : Reader α := do
  let a ← f
  plain (mark .semicolon)
  pure a

theorem bare_terminated {reading : Reading α ts} {f : Reader α} (h : bare reading = f ts) :
    bare (terminated reading) = semicolonAfter f ts :=
  bare_bind h fun _ => bare_bind rfl fun _ => rfl

/-- A whole part, and then the semicolon. -/
theorem Pinpoints.semicolonAfter {read : (ts : List Lexeme) → Reading α ts}
    {derived : List Lexeme → α → Prop} {viable : List Lexeme → Prop}
    (hread : Pinpoints (plain read) (Viable derived) ts)
    (hsound : ∀ {a rest}, Yields (read ts) a rest → ∃ xs, ts = xs ++ rest ∧ derived xs a)
    (hviable : ∀ {xs ys a}, derived (xs ++ ys) a → viable xs) :
    Pinpoints (semicolonAfter (plain read)) viable ts := by
  refine .step hread hsound (fun ys ⟨zs, a, h⟩ => hviable h) fun xs a rest ha _ => ?_
  exact .mark (hviable (by rwa [List.append_nil, List.append_nil])) fun _ _ _ => .pure a

/-! ## Gate calls -/

theorem plain_call_rotation (h : peek ts = .keyword .rotation) : plain call ts =
    (do plain (exactly (.keyword .rotation))
        plain (mark .openParen)
        let es ← plain expressionList
        plain (mark .closeParen)
        let vs ← plain operandList
        pure ⟨.rotation, some es, vs⟩ : Reader GateCall) ts := by
  show bare (call ts) = _
  rw [call, if_pos h]
  exact bare_bind rfl fun _ => bare_bind rfl fun _ => bare_bind rfl fun _ => bare_bind rfl fun _ =>
    bare_bind rfl fun _ => rfl

theorem plain_call_other (h : peek ts ≠ .keyword .rotation) : plain call ts =
    (do let gate ← plain (next .statement gateName?)
        let es ← plain (parenthesized? expressionList)
        let vs ← plain operandList
        pure ⟨gate, es, vs⟩ : Reader GateCall) ts := by
  show bare (call ts) = _
  rw [call, if_neg h]
  refine bare_bind rfl fun gate => (bare_pass _ _).trans ?_
  exact bare_bind rfl fun _ => bare_bind rfl fun _ => rfl

theorem pinpoints_parameters (ts : List Lexeme) : Pinpoints
    (plain (parenthesized? expressionList)) (Viable (IsOptional (IsList (IsExpr .sum)))) ts :=
  pinpoints_parenthesized? pinpoints_expressionList recognizes_expressionList.sound ts

theorem pinpoints_call (ts : List Lexeme) : Pinpoints (plain call) (Viable IsCall) ts := by
  have hempty : Viable IsCall [] := .of_start isCall_some List.nil_prefix
  have hos := IsList.single isOperand_some
  by_cases hrotation : peek ts = .keyword .rotation
  · refine .congr (fun _ h => plain_call_rotation ((peek_of_head h).trans hrotation)) ?_
    have hps := IsList.single (isExpr_some .sum)
    refine .exactly hempty fun p rest _ => ?_
    refine .mark (.of_start (.rotation (p := p) (q := p) (r := p) hps hos) (by simp))
      fun q rest _ => ?_
    refine .step (pinpoints_expressionList rest) recognizes_expressionList.sound (fun ys h => ?_)
      fun ps es rest hps _ => ?_
    · exact h.within fun h => ⟨_, _, .rotation (p := p) (q := q) (r := q) h hos, by simp⟩
    refine .mark (.of_start (.rotation (p := p) (q := q) (r := q) hps hos) (by simp))
      fun r rest _ => ?_
    refine ((pinpoints_operandList rest).mono fun ys h => ?_).bind_pure _
    exact h.within fun h => ⟨_, _, .rotation (p := p) (q := q) (r := r) hps h, by simp⟩
  · -- the gates that are named are read alike, and a call of each may go on with the same lexemes
    refine .congr (fun _ h => plain_call_other ((peek_of_head h).trans_ne hrotation)) ?_
    refine .nextStep hempty fun ⟨token, p⟩ gate rest hgate _ => ?_
    have hcall {ps os : List Lexeme} {es : Option (List Expr)} {vs : List Operand}
        (hps : IsOptional (IsList (IsExpr .sum)) ps es) (hos : IsList IsOperand os vs) :
        IsCall (⟨token, p⟩ :: ps ++ os) ⟨gate, es, vs⟩ := by
      rcases gateName?_eq_some_iff.mp hgate with ⟨htoken, rfl⟩ | ⟨name, htoken, rfl⟩
      · cases htoken
        exact .controlledNot hps hos
      · cases htoken
        exact .named hps hos
    refine .step (pinpoints_parameters rest) recognizes_parameters.sound (fun ys h => ?_)
      fun ps es rest hps _ => ?_
    · exact h.within fun h => ⟨_, _, hcall h hos, by simp⟩
    refine ((pinpoints_operandList rest).mono fun ys h => ?_).bind_pure _
    exact h.within fun h => ⟨_, _, hcall hps h, by simp⟩

/-! ## Operations -/

theorem plain_operation_measure (h : peek ts = .keyword .measure) : plain operation ts =
    (do plain (exactly (.keyword .measure))
        let v ← plain operand
        plain (mark .arrow)
        let w ← plain operand
        plain (mark .semicolon)
        pure (.measure v w) : Reader Operation) ts := by
  have hread : plain measurement ts = (do
      plain (exactly (.keyword .measure))
      let v ← plain operand
      plain (mark .arrow)
      let w ← plain operand
      pure (.measure v w) : Reader Operation) ts :=
    bare_bind rfl fun _ => bare_bind rfl fun _ => bare_bind rfl fun _ => bare_bind rfl fun _ => rfl
  show bare (operation ts) = _
  rw [operation, if_pos h]
  exact (bare_terminated hread).trans (by simp only [semicolonAfter, bind_assoc, pure_bind])

theorem plain_operation_reset (h : peek ts = .keyword .reset) : plain operation ts =
    (do plain (exactly (.keyword .reset))
        let v ← plain operand
        plain (mark .semicolon)
        pure (.reset v) : Reader Operation) ts := by
  have hread : plain resetting ts = (do
      plain (exactly (.keyword .reset))
      let v ← plain operand
      pure (.reset v) : Reader Operation) ts := bare_bind rfl fun _ => bare_bind rfl fun _ => rfl
  show bare (operation ts) = _
  rw [operation, if_neg (h.trans_ne (by decide)), if_pos h]
  exact (bare_terminated hread).trans (by simp only [semicolonAfter, bind_assoc, pure_bind])

theorem plain_operation_call (hmeasure : peek ts ≠ .keyword .measure)
    (hreset : peek ts ≠ .keyword .reset) : plain operation ts =
    (do let c ← semicolonAfter (plain call)
        pure (.call c) : Reader Operation) ts := by
  show bare (operation ts) = _
  rw [operation, if_neg hmeasure, if_neg hreset]
  exact (bare_terminated (bare_map (f := plain call) rfl)).trans
    (by simp only [semicolonAfter, bind_assoc, pure_bind])

theorem pinpoints_operation (ts : List Lexeme) :
    Pinpoints (plain operation) (Viable IsOperation) ts := by
  have hempty : Viable IsOperation [] := .of_start isOperation_some List.nil_prefix
  have hw := isOperand_some
  by_cases hmeasure : peek ts = .keyword .measure
  · refine .congr (fun _ h => plain_operation_measure ((peek_of_head h).trans hmeasure)) ?_
    refine .exactly hempty fun p rest _ => ?_
    refine .step (pinpoints_operand rest) recognizes_operand.sound (fun ys h => ?_)
      fun xs v rest hv _ => ?_
    · exact h.within fun h => ⟨_, _, .measure (p := p) (q := p) (r := p) h hw, by simp⟩
    refine .mark (.of_start (.measure (p := p) (q := p) (r := p) hv hw) (by simp))
      fun q rest _ => ?_
    refine .step (pinpoints_operand rest) recognizes_operand.sound (fun ys h => ?_)
      fun ys w rest hw _ => ?_
    · exact h.within fun h => ⟨_, _, .measure (p := p) (q := q) (r := p) hv h, by simp⟩
    exact .mark (.of_start (.measure (p := p) (q := q) (r := p) hv hw) (by simp))
      fun _ _ _ => .pure _
  by_cases hreset : peek ts = .keyword .reset
  · refine .congr (fun _ h => plain_operation_reset ((peek_of_head h).trans hreset)) ?_
    refine .exactly hempty fun p rest _ => ?_
    refine .step (pinpoints_operand rest) recognizes_operand.sound (fun ys h => ?_)
      fun xs v rest hv _ => ?_
    · exact h.within fun h => ⟨_, _, .reset (p := p) (q := p) h, by simp⟩
    exact .mark (.of_start (.reset (p := p) (q := p) hv) (by simp)) fun _ _ _ => .pure _
  · refine .congr (fun _ h => plain_operation_call ((peek_of_head h).trans_ne hmeasure)
      ((peek_of_head h).trans_ne hreset)) (.bind_pure ?_ _)
    exact .semicolonAfter (pinpoints_call ts) recognizes_call.sound fun h =>
      .of_start (.call (p := default) h) (by simp)

/-! ## Gate definitions -/

theorem plain_signature : plain signature ts =
    (do let name ← plain identifier
        let formals ← plain (parenthesized? identifierList)
        let arguments ← plain identifierList
        pure ⟨name, formals, arguments⟩ : Reader Signature) ts :=
  bare_bind rfl fun _ => bare_bind rfl fun _ => bare_bind rfl fun _ => rfl

theorem pinpoints_signature (ts : List Lexeme) :
    Pinpoints (plain signature) (Viable IsSignature) ts := by
  refine .congr (fun _ _ => plain_signature) ?_
  refine .identifier (.of_start isSignature_some List.nil_prefix) fun x p rest _ => ?_
  have hsignature {xs ys : List Lexeme} {formals : Option (List String)} {arguments : List String}
      (hxs : IsOptional (IsList IsName) xs formals) (hys : IsList IsName ys arguments) :
      IsSignature (⟨.identifier x, p⟩ :: xs ++ ys) ⟨x, formals, arguments⟩ := .signature hxs hys
  refine .step (pinpoints_parenthesized? pinpoints_identifierList recognizes_identifierList.sound
    rest) recognizes_formals.sound (fun ys h => ?_) fun xs formals rest hformals _ => ?_
  · exact h.within fun h => ⟨_, _, hsignature h (.single isName_some), by simp⟩
  refine ((pinpoints_identifierList rest).mono fun ys h => ?_).bind_pure _
  exact h.within fun h => ⟨_, _, hsignature hformals h, by simp⟩

theorem plain_barrier : plain barrier ts =
    (do plain (exactly (.keyword .barrier))
        semicolonAfter (plain operandList) : Reader (List Operand)) ts :=
  bare_bind rfl fun _ => (bare_pass _ _).trans (bare_terminated rfl)

theorem plain_bodyStatement_barrier (h : peek ts = .keyword .barrier) (hp : here ts = p) :
    plain bodyStatement ts =
    (do let vs ← plain barrier
        pure ⟨.barrier vs, p⟩ : Reader BodyStatement) ts := by
  subst hp
  show bare (bodyStatement ts) = _
  rw [bodyStatement, h]
  exact bare_map rfl

/-- The tokens that a call starts with. -/
def startsCall : Token → Bool
  | .keyword .rotation | .keyword .controlledNot | .identifier _ => true
  | _ => false

theorem plain_bodyStatement_call (h : startsCall (peek ts)) (hp : here ts = p) :
    plain bodyStatement ts =
    (do let c ← semicolonAfter (plain call)
        pure ⟨.call c, p⟩ : Reader BodyStatement) ts := by
  subst hp
  show bare (bodyStatement ts) = _
  unfold startsCall at h
  rw [bodyStatement]
  split at h
  · rename_i htoken
    rw [htoken]
    exact bare_map (bare_terminated rfl)
  · rename_i htoken
    rw [htoken]
    exact bare_map (bare_terminated rfl)
  · rename_i htoken
    rw [htoken]
    exact bare_map (bare_terminated rfl)
  · cases h

/-- The error about a lexeme that starts no statement of a body. -/
def bodyFault (ts : List Lexeme) : SyntaxError :=
  if peek ts = .endOfFile then unexpected (.token (.mark .closeBrace)) ts
  else ⟨.notInGateBody (peek ts), here ts⟩

theorem bodyFault_pos : (bodyFault ts).pos = here ts := by
  unfold bodyFault
  split <;> rfl

theorem plain_bodyStatement_fault (hbarrier : peek ts ≠ .keyword .barrier)
    (hcall : ¬startsCall (peek ts)) : plain bodyStatement ts = .error (bodyFault ts) := by
  show bare (bodyStatement ts) = _
  rw [bodyStatement]
  split
  · exact absurd ‹_› hbarrier
  · rename_i h
    exact absurd (by rw [h]; rfl) hcall
  · rename_i h
    exact absurd (by rw [h]; rfl) hcall
  · rename_i h
    exact absurd (by rw [h]; rfl) hcall
  · rename_i h
    rw [bodyFault, if_pos h]
    rfl
  · rename_i h
    rw [bodyFault, if_neg h]
    rfl

/-- A call with its semicolon is a statement of a body. -/
theorem isBodyStatement_of_isCall {xs : List Lexeme} {c : GateCall} (h : IsCall xs c) :
    ∃ s, IsBodyStatement (xs ++ [⟨.mark .semicolon, p⟩]) s := by
  cases xs with
  | nil => cases h
  | cons l xs => exact ⟨_, .call h⟩

theorem pinpoints_bodyStatement (ts : List Lexeme) :
    Pinpoints (plain bodyStatement) (Viable IsBodyStatement) ts := by
  have hempty : Viable IsBodyStatement [] :=
    .of_start (.barrier (p := default) (q := default) (.single isOperand_some)) List.nil_prefix
  by_cases hbarrier : peek ts = .keyword .barrier
  · refine .congr (fun _ h => plain_bodyStatement_barrier ((peek_of_head h).trans hbarrier)
      (here_of_head h)) (.bind_pure (.congr (fun _ _ => plain_barrier) ?_) _)
    refine .exactly hempty fun p rest _ => ?_
    exact .semicolonAfter (pinpoints_operandList rest) recognizes_operandList.sound fun h =>
      .of_start (.barrier (p := p) (q := p) h) (by simp)
  by_cases hcall : startsCall (peek ts)
  · refine .congr (fun _ h => plain_bodyStatement_call (by rwa [peek_of_head h])
      (here_of_head h)) (.bind_pure ?_ _)
    refine .semicolonAfter (pinpoints_call ts) recognizes_call.sound fun h => ?_
    obtain ⟨s, hs⟩ := isBodyStatement_of_isCall (p := default) h
    exact .of_start hs (by simp)
  · -- a lexeme that no statement of a body starts with, the end of the file included
    refine .fault hempty bodyFault_pos fun other h => ?_
    have hfault : bodyFault other = bodyFault ts := by
      rw [bodyFault, bodyFault, unexpected_of_head h, peek_of_head h, here_of_head h]
    rw [← hfault]
    rw [← peek_of_head h] at hbarrier hcall
    exact plain_bodyStatement_fault hbarrier hcall

theorem plain_body_close (h : peek ts = .mark .closeBrace) : plain body ts =
    (do plain (mark .closeBrace)
        pure [] : Reader (List BodyStatement)) ts := by
  show bare (body ts) = _
  rw [body, if_pos h]
  exact bare_bind rfl fun _ => rfl

theorem plain_body_statement (h : peek ts ≠ .mark .closeBrace) : plain body ts =
    (do let s ← plain bodyStatement
        let others ← plain body
        pure (s :: others) : Reader (List BodyStatement)) ts := by
  show bare (body ts) = _
  rw [body, if_neg h]
  exact bare_bind rfl fun _ => bare_bind rfl fun _ => rfl

/-- The statements of a body, with the brace that closes it. -/
inductive IsBody : List Lexeme → List BodyStatement → Prop
  | closed {xs : List Lexeme} {body : List BodyStatement} {p : SourcePos} :
      IsMany IsBodyStatement xs body → IsBody (xs ++ [⟨.mark .closeBrace, p⟩]) body

theorem IsBody.cons {xs ys : List Lexeme} {s : BodyStatement} {as : List BodyStatement}
    (hs : IsBodyStatement xs s) (h : IsBody ys as) : IsBody (xs ++ ys) (s :: as) := by
  obtain ⟨h⟩ := h
  rw [← List.append_assoc]
  exact .closed (.cons hs h)

theorem pinpoints_body (ts : List Lexeme) : Pinpoints (plain body) (Viable IsBody) ts := by
  have hclosed : IsBody ([] ++ [⟨.mark .closeBrace, default⟩]) [] := .closed .nil
  by_cases hclose : peek ts = .mark .closeBrace
  · refine .congr (fun _ h => plain_body_close ((peek_of_head h).trans hclose)) ?_
    exact .mark (.of_start hclosed List.nil_prefix) fun _ _ _ => .pure _
  · refine .congr (fun _ h => plain_body_statement ((peek_of_head h).trans_ne hclose)) ?_
    refine .step (pinpoints_bodyStatement ts) recognizes_bodyStatement.sound (fun ys h => ?_)
      fun xs s rest hs hshorter => ?_
    · exact h.within fun h => ⟨_, _, .cons h hclosed, by simp⟩
    refine ((pinpoints_body rest).mono fun ys h => ?_).bind_pure _
    exact h.within fun h => ⟨_, _, .cons hs h, by simp⟩
termination_by ts.length

/-! ## Statements -/

theorem plain_register {kind : RegisterKind} : plain (register kind) ts =
    (do let name ← plain identifier
        plain (mark .openBracket)
        let width ← plain integer
        plain (mark .closeBracket)
        plain (mark .semicolon)
        pure (.register kind name width) : Reader Action) ts := by
  have hread : plain (register kind) ts = (do
      let name ← plain identifier
      plain (mark .openBracket)
      let width ← plain integer
      semicolonAfter (plain (mark .closeBracket))
      pure (.register kind name width) : Reader Action) ts :=
    bare_bind rfl fun _ => bare_bind rfl fun _ => bare_bind rfl fun _ =>
      bare_bind (bare_terminated rfl) fun _ => rfl
  exact hread.trans (by simp only [semicolonAfter, bind_assoc, pure_bind])

theorem plain_gateDefinition : plain gateDefinition ts =
    (do let s ← plain signature
        plain (mark .openBrace)
        let statements ← plain body
        pure (.gate s statements) : Reader Action) ts :=
  bare_bind rfl fun _ => bare_bind rfl fun _ => bare_bind rfl fun _ => rfl

/-- The operation that a condition guards. -/
def guarded (v : Operand) (e : Expr) : Reader Action := fun ts =>
  (do let o ← plain operation
      pure (.conditional v e o (here ts)) : Reader Action) ts

theorem plain_conditional : plain conditional ts =
    (do plain (mark .openParen)
        let v ← plain operand
        plain (mark .equal)
        let e ← plain expression
        plain (mark .closeParen)
        guarded v e : Reader Action) ts :=
  bare_bind rfl fun _ => bare_bind rfl fun _ => bare_bind rfl fun _ => bare_bind rfl fun _ =>
    bare_bind rfl fun _ => bare_bind rfl fun _ => rfl

theorem isAction_gate {xs ys : List Lexeme} {s : Signature} {statements : List BodyStatement}
    {q : SourcePos} (hs : IsSignature xs s) (h : IsBody ys statements) :
    IsAction (⟨.keyword .gate, p⟩ :: xs ++ ⟨.mark .openBrace, q⟩ :: ys) (.gate s statements) := by
  obtain @⟨ys, _, r, h⟩ := h
  have hgate := IsAction.gate (p := p) (q := q) (r := r) hs h
  rwa [List.append_assoc] at hgate

section Actions

variable (p : SourcePos) (ts : List Lexeme)

theorem pinpoints_register {kind : RegisterKind} {word : Keyword}
    (haction : ∀ {name width q r s t u}, IsAction [⟨.keyword word, p⟩, ⟨.identifier name, q⟩,
      ⟨.mark .openBracket, r⟩, ⟨.integer width, s⟩, ⟨.mark .closeBracket, t⟩,
      ⟨.mark .semicolon, u⟩] (.register kind name width)) :
    Pinpoints (plain (register kind))
      (fun ys => Viable IsAction (⟨.keyword word, p⟩ :: ys)) ts := by
  have hviable {ys : List Lexeme} (name : String) (width : Nat) (q r s t : SourcePos)
      (h : ys <+: [⟨.identifier name, q⟩, ⟨.mark .openBracket, r⟩, ⟨.integer width, s⟩,
        ⟨.mark .closeBracket, t⟩, ⟨.mark .semicolon, p⟩]) :
      Viable IsAction (⟨.keyword word, p⟩ :: ys) :=
    .of_start haction (List.cons_prefix_cons.mpr ⟨rfl, h⟩)
  refine .congr (fun _ _ => plain_register) ?_
  refine .identifier (hviable "x" 0 p p p p List.nil_prefix) fun x q rest _ => ?_
  refine .mark (hviable x 0 q p p p ⟨_, rfl⟩) fun r rest _ => ?_
  refine .integer (hviable x 0 q r p p ⟨_, rfl⟩) fun i s rest _ => ?_
  refine .mark (hviable x i q r s p ⟨_, rfl⟩) fun t rest _ => ?_
  exact .mark (hviable x i q r s t ⟨_, rfl⟩) fun _ _ _ => .pure _

theorem pinpoints_gateDefinition : Pinpoints (plain gateDefinition)
    (fun ys => Viable IsAction (⟨.keyword .gate, p⟩ :: ys)) ts := by
  refine .congr (fun _ _ => plain_gateDefinition) ?_
  refine .step (pinpoints_signature ts) recognizes_signature.sound (fun ys h => ?_)
    fun xs s rest hs _ => ?_
  · exact h.within fun h => ⟨_, _, .gate (p := p) (q := p) (r := p) h .nil, by simp⟩
  refine .mark (.of_start (.gate (p := p) (q := p) (r := p) hs .nil) (by simp))
    fun q rest _ => ?_
  refine ((pinpoints_body rest).mono fun ys h => ?_).bind_pure _
  exact h.within fun h => ⟨_, _, isAction_gate (p := p) (q := q) hs h, by simp⟩

theorem pinpoints_conditional : Pinpoints (plain conditional)
    (fun ys => Viable IsAction (⟨.keyword .ifEqual, p⟩ :: ys)) ts := by
  have hoperation := isOperation_some
  have he := isExpr_some .sum
  refine .congr (fun _ _ => plain_conditional) ?_
  have hempty : Viable IsAction [⟨.keyword .ifEqual, p⟩] :=
    .of_start (.conditional (p := p) (q := p) (r := p) (s := p) isOperand_some he hoperation)
      ⟨_, rfl⟩
  refine .mark hempty fun q rest _ => ?_
  refine .step (pinpoints_operand rest) recognizes_operand.sound (fun ys h => ?_)
    fun xs v rest hv _ => ?_
  · exact h.within fun h =>
      ⟨_, _, .conditional (p := p) (q := q) (r := p) (s := p) h he hoperation, by simp⟩
  refine .mark (.of_start (.conditional (p := p) (q := q) (r := p) (s := p) hv he hoperation)
    (by simp)) fun r rest _ => ?_
  refine .step (pinpoints_expression rest) recognizes_expression.sound (fun ys h => ?_)
    fun ys e rest he _ => ?_
  · exact h.within fun h =>
      ⟨_, _, .conditional (p := p) (q := q) (r := r) (s := p) hv h hoperation, by simp⟩
  refine .mark (.of_start (.conditional (p := p) (q := q) (r := r) (s := p) hv he hoperation)
    (by simp)) fun s rest _ => ?_
  -- the position of what is guarded is that of the lexeme at the head
  refine .congr (f := do
    let o ← plain operation
    pure (.conditional v e o (here rest))) (fun _ h => by rw [guarded, here_of_head h]) ?_
  refine ((pinpoints_operation rest).mono fun zs h => h.within fun {ws o} h => ?_).bind_pure _
  obtain ⟨l, tail, heq, -⟩ := exists_head_of_isOperation h
  exact ⟨_, _, .conditional (p := p) (q := q) (r := r) (s := s) hv he (heq ▸ h),
    by rw [← heq]; simp⟩

/-- **What a keyword introduces pinpoints its errors** behind that keyword. -/
theorem pinpoints_introduced {token : Token} {read : (ts : List Lexeme) → Reading Action ts}
    (hread : introduced? token = some read) :
    Pinpoints (plain read) (fun ys => Viable IsAction (⟨token, p⟩ :: ys)) ts := by
  unfold introduced? at hread
  split at hread <;> cases hread
  · exact pinpoints_register p ts .qreg
  · exact pinpoints_register p ts .creg
  · exact pinpoints_gateDefinition p ts
  · refine .congr (fun _ _ => bare_map (bare_terminated rfl)) (.bind_pure ?_ _)
    exact .semicolonAfter (pinpoints_signature ts) recognizes_signature.sound fun h =>
      .of_start (.opaqueGate (p := p) (q := p) h) (by simp)
  · refine .congr (fun _ _ => bare_map (bare_terminated rfl)) (.bind_pure ?_ _)
    exact .semicolonAfter (pinpoints_operandList ts) recognizes_operandList.sound fun h =>
      .of_start (.barrier (p := p) (q := p) h) (by simp)
  · exact pinpoints_conditional p ts

end Actions

theorem plain_statement_some {token : Token} {read : (ts : List Lexeme) → Reading Action ts}
    (hread : introduced? token = some read) (h : peek ts = token) (hp : here ts = p) :
    plain statement ts =
    (do plain (exactly token)
        let a ← plain read
        pure ⟨a, p⟩ : Reader Statement) ts := by
  cases ts with
  | nil =>
    obtain rfl : Token.endOfFile = token := h
    cases hread
  | cons l rest =>
    obtain ⟨found, q⟩ := l
    obtain rfl : found = token := h
    obtain rfl : q = p := hp
    refine .trans ?_ (plain_exactly_bind _).symm
    show bare (statement _) = _
    rw [statement]
    simp only [hread]
    exact bare_bind rfl fun _ => rfl

theorem plain_statement_none (h : introduced? (peek ts) = none) (hp : here ts = p) :
    plain statement ts =
    (do let o ← plain operation
        pure ⟨.operation o, p⟩ : Reader Statement) ts := by
  subst hp
  show bare (statement ts) = _
  match ts with
  | [] => rfl
  | l :: rest =>
    have h : introduced? l.token = none := h
    rw [statement]
    simp only [h]
    exact bare_map rfl

/-- **Statements pinpoint their errors.** -/
theorem pinpoints_statement (ts : List Lexeme) :
    Pinpoints (plain statement) (Viable IsStatement) ts := by
  have hempty : Viable IsStatement [] :=
    .of_start (.statement (.operation isOperation_some)) List.nil_prefix
  cases hread : introduced? (peek ts) with
  | none =>
    refine .congr (fun _ h => plain_statement_none (by rwa [peek_of_head h]) (here_of_head h)) ?_
    refine ((pinpoints_operation ts).mono fun ys h => h.within fun {zs o} h => ?_).bind_pure _
    obtain ⟨l, tail, heq, -⟩ := exists_head_of_isOperation h
    exact ⟨_, _, .statement (.operation (heq ▸ h)), ⟨_, heq⟩⟩
  | some read =>
    refine .congr (fun _ h => plain_statement_some hread (peek_of_head h) (here_of_head h)) ?_
    refine .exactly hempty fun p rest _ => ?_
    refine ((pinpoints_introduced p rest hread).mono fun ys h => ?_).bind_pure _
    exact h.within fun h => ⟨_, _, .statement h, by simp⟩

end OpenQasm.Parse
