import OpenQasm.Proofs.Expressions

/-!
# Statements are read as they are derived

Each reader of a statement's parts recognizes its nonterminal. A statement ends with a semicolon or
a brace, so nothing that follows could extend it.
-/

namespace OpenQasm.Parse

open Grammar

variable {ts rest xs : List Lexeme}

/-! ## Gate calls -/

theorem recognizes_parameters : Recognizes (parenthesized? expressionList)
    (IsOptional (IsList (IsExpr .sum))) [.mark .openParen] :=
  recognizes_parenthesized recognizes_expressionList (by decide) peek_ne_of_isExprList

/-- The gates that a call may name. -/
theorem gateName?_eq_some_iff {token : Token} {gate : GateName} : gateName? token = some gate ↔
    (token = .keyword .controlledNot ∧ gate = .controlledNot) ∨
      ∃ name, token = .identifier name ∧ gate = .named name := by
  unfold gateName?
  split <;> simp_all [eq_comm]

/-- A list of operands starts with a name. -/
theorem peek_of_isOperands {vs : List Operand} (h : IsList IsOperand xs vs) (rest : List Lexeme) :
    ∃ name, peek (xs ++ rest) = .identifier name := by
  cases h with
  | single hv => cases hv <;> exact ⟨_, rfl⟩
  | cons hv _ => cases hv <;> exact ⟨_, rfl⟩

theorem yields_callOf {gate : GateName} {c : GateCall} : Yields (callOf gate ts) c rest ↔
    ∃ es between vs, Yields (parenthesized? expressionList ts) es between ∧
      Yields (operandList between) vs rest ∧ c = ⟨gate, es, vs⟩ := by
  simp only [callOf, yields_bind, yields_pure, exists_prop]
  constructor
  · rintro ⟨es, between, hes, vs, _, hvs, rfl, rfl⟩
    exact ⟨es, between, vs, hes, hvs, rfl⟩
  · rintro ⟨es, between, vs, hes, hvs, rfl⟩
    exact ⟨es, between, hes, vs, rest, hvs, rfl, rfl⟩

theorem yields_rotationCall {c : GateCall} : Yields (rotationCall ts) c rest ↔
    ∃ p q r tail es between vs, ts = ⟨.keyword .rotation, p⟩ :: ⟨.mark .openParen, q⟩ :: tail ∧
      Yields (expressionList tail) es (⟨.mark .closeParen, r⟩ :: between) ∧
      Yields (operandList between) vs rest ∧ c = ⟨.rotation, some es, vs⟩ := by
  simp only [rotationCall, yields_bind, yields_exactly, yields_mark, yields_pure, exists_prop,
    exists_const]
  constructor
  · rintro ⟨_, ⟨p, rfl⟩, tail, ⟨q, rfl⟩, es, _, hes, between, ⟨r, rfl⟩, vs, _, hvs, rfl, rfl⟩
    exact ⟨p, q, r, tail, es, between, vs, rfl, hes, hvs, rfl⟩
  · rintro ⟨p, q, r, tail, es, between, vs, rfl, hes, hvs, rfl⟩
    exact ⟨_, ⟨p, rfl⟩, tail, ⟨q, rfl⟩, es, _, hes, between, ⟨r, rfl⟩, vs, rest, hvs, rfl, rfl⟩

/-- `U` is read on its own, the other gates by their name and what follows. -/
theorem yields_call {c : GateCall} : Yields (call ts) c rest ↔
    Yields (rotationCall ts) c rest ∨
      ∃ l tail gate, ts = l :: tail ∧ gateName? l.token = some gate ∧
        Yields (callOf gate tail) c rest := by
  rw [call]
  split
  · rename_i h
    obtain ⟨p, tail, rfl⟩ := peek_eq_keyword.mp h
    refine ⟨Or.inl, fun h => h.elim id ?_⟩
    rintro ⟨l, _, gate, hl, hgate, -⟩
    cases hl
    cases hgate
  · rename_i h
    simp only [yields_bind, yields_next, yields_pure]
    constructor
    · rintro ⟨gate, tail, ⟨l, rfl, hgate⟩, c, _, hc, rfl, rfl⟩
      exact Or.inr ⟨l, tail, gate, rfl, hgate, hc⟩
    · rintro (hrotation | ⟨l, tail, gate, rfl, hgate, hc⟩)
      · obtain ⟨p, q, r, tail, es, between, vs, rfl, -⟩ := yields_rotationCall.mp hrotation
        exact absurd rfl h
      · exact ⟨gate, tail, ⟨l, rfl, hgate⟩, c, rest, hc, rfl, rfl⟩

/-- What follows the name of a gate other than `U`. -/
theorem complete_callOf {ps os : List Lexeme} {es : Option (List Expr)} {vs : List Operand}
    (gate : GateName) (hps : IsOptional (IsList (IsExpr .sum)) ps es)
    (hos : IsList IsOperand os vs) (hrest : peek rest ∉ [.mark .comma, .mark .openBracket]) :
    Yields (callOf gate (ps ++ os ++ rest)) ⟨gate, es, vs⟩ rest := by
  obtain ⟨name, hname⟩ := peek_of_isOperands hos rest
  rw [List.append_assoc]
  exact yields_callOf.mpr ⟨es, _, vs, recognizes_parameters.complete hps (by simp [hname]),
    recognizes_operandList.complete hos hrest, rfl⟩

theorem recognizes_call : Recognizes call IsCall [.mark .comma, .mark .openBracket] where
  sound h := by
    rcases yields_call.mp h with hrotation | ⟨⟨token, p⟩, tail, gate, rfl, hgate, hcall⟩
    · obtain ⟨p, q, r, tail, es, between, vs, rfl, hes, hvs, rfl⟩ :=
        yields_rotationCall.mp hrotation
      obtain ⟨ps, rfl, hps⟩ := recognizes_expressionList.sound hes
      obtain ⟨os, rfl, hos⟩ := recognizes_operandList.sound hvs
      exact ⟨⟨.keyword .rotation, p⟩ :: ⟨.mark .openParen, q⟩ :: ps ++ ⟨.mark .closeParen, r⟩ :: os,
        by simp, .rotation hps hos⟩
    · obtain ⟨es, between, vs, hes, hvs, rfl⟩ := yields_callOf.mp hcall
      obtain ⟨ps, rfl, hps⟩ := recognizes_parameters.sound hes
      obtain ⟨os, rfl, hos⟩ := recognizes_operandList.sound hvs
      refine ⟨⟨token, p⟩ :: ps ++ os, by simp, ?_⟩
      rcases gateName?_eq_some_iff.mp hgate with ⟨htoken, rfl⟩ | ⟨name, htoken, rfl⟩
      · cases htoken
        exact .controlledNot hps hos
      · cases htoken
        exact .named hps hos
  complete {_ _ rest} h hrest := by
    refine yields_call.mpr ?_
    cases h with
    | @rotation ps os es vs p q r hps hos =>
      exact Or.inl (yields_rotationCall.mpr ⟨p, q, r, _, es, os ++ rest, vs, by simp,
        recognizes_expressionList.complete hps (by simp [peek, extending]),
        recognizes_operandList.complete hos hrest, rfl⟩)
    | controlledNot hps hos =>
      exact Or.inr ⟨_, _, _, rfl, rfl, complete_callOf _ hps hos hrest⟩
    | named hps hos => exact Or.inr ⟨_, _, _, rfl, rfl, complete_callOf _ hps hos hrest⟩

/-! ## Operations -/

/-- The words that a call starts with. -/
theorem peek_of_isCall {c : GateCall} (h : IsCall xs c) (rest : List Lexeme) :
    peek (xs ++ rest) = .keyword .rotation ∨ peek (xs ++ rest) = .keyword .controlledNot ∨
      ∃ name, peek (xs ++ rest) = .identifier name := by
  cases h with
  | rotation => exact Or.inl rfl
  | controlledNot => exact Or.inr (Or.inl rfl)
  | named => exact Or.inr (Or.inr ⟨_, rfl⟩)

theorem yields_measurement {o : Operation} : Yields (measurement ts) o rest ↔
    ∃ p q tail between v w, ts = ⟨.keyword .measure, p⟩ :: tail ∧
      Yields (operand tail) v (⟨.mark .arrow, q⟩ :: between) ∧ Yields (operand between) w rest ∧
      o = .measure v w := by
  simp only [measurement, yields_bind, yields_exactly, yields_mark, yields_pure, exists_prop,
    exists_const]
  constructor
  · rintro ⟨tail, ⟨p, rfl⟩, v, _, hv, between, ⟨q, rfl⟩, w, _, hw, rfl, rfl⟩
    exact ⟨p, q, tail, between, v, w, rfl, hv, hw, rfl⟩
  · rintro ⟨p, q, tail, between, v, w, rfl, hv, hw, rfl⟩
    exact ⟨tail, ⟨p, rfl⟩, v, _, hv, between, ⟨q, rfl⟩, w, rest, hw, rfl, rfl⟩

theorem yields_resetting {o : Operation} : Yields (resetting ts) o rest ↔
    ∃ p tail v, ts = ⟨.keyword .reset, p⟩ :: tail ∧ Yields (operand tail) v rest ∧
      o = .reset v := by
  simp only [resetting, yields_bind, yields_exactly, yields_pure, exists_prop, exists_const]
  constructor
  · rintro ⟨tail, ⟨p, rfl⟩, v, _, hv, rfl, rfl⟩
    exact ⟨p, tail, v, rfl, hv, rfl⟩
  · rintro ⟨p, tail, v, rfl, hv, rfl⟩
    exact ⟨tail, ⟨p, rfl⟩, v, rest, hv, rfl, rfl⟩

/-- The alternatives of an operation start with different words, so their order does not matter. -/
theorem yields_operation {o : Operation} : Yields (operation ts) o rest ↔
    ∃ p, Yields (measurement ts) o (⟨.mark .semicolon, p⟩ :: rest) ∨
      Yields (resetting ts) o (⟨.mark .semicolon, p⟩ :: rest) ∨
      ∃ c, Yields (call ts) c (⟨.mark .semicolon, p⟩ :: rest) ∧ o = .call c := by
  rw [operation, yields_terminated]
  refine exists_congr fun p => ?_
  have hmeasure : ∀ {last}, Yields (measurement ts) o last → peek ts = .keyword .measure := by
    intro last h
    obtain ⟨p, q, tail, between, v, w, rfl, -⟩ := yields_measurement.mp h
    rfl
  have hreset : ∀ {last}, Yields (resetting ts) o last → peek ts = .keyword .reset := by
    intro last h
    obtain ⟨p, tail, v, rfl, -⟩ := yields_resetting.mp h
    rfl
  have hcall : ∀ {c last}, Yields (call ts) c last →
      peek ts ≠ .keyword .measure ∧ peek ts ≠ .keyword .reset := by
    intro c last h
    obtain ⟨xs, rfl, hxs⟩ := recognizes_call.sound h
    rcases peek_of_isCall hxs last with h | h | ⟨name, h⟩ <;> rw [h] <;> exact ⟨nofun, nofun⟩
  split
  · rename_i hhead
    constructor
    · exact Or.inl
    · rintro (h | h | ⟨c, h, rfl⟩)
      · exact h
      · exact nomatch hhead.symm.trans (hreset h)
      · exact absurd hhead (hcall h).1
  split
  · rename_i hhead
    constructor
    · exact fun h => Or.inr (Or.inl h)
    · rintro (h | h | ⟨c, h, rfl⟩)
      · exact nomatch hhead.symm.trans (hmeasure h)
      · exact h
      · exact absurd hhead (hcall h).2
  · rename_i hnotMeasure hnotReset
    rw [yields_map]
    constructor
    · exact fun h => Or.inr (Or.inr h)
    · rintro (h | h | h)
      · exact absurd (hmeasure h) hnotMeasure
      · exact absurd (hreset h) hnotReset
      · exact h

theorem recognizes_operation : Recognizes operation IsOperation [] where
  sound h := by
    obtain ⟨s, h⟩ := yields_operation.mp h
    rcases h with h | h | ⟨c, hc, rfl⟩
    · obtain ⟨p, q, tail, between, v, w, rfl, hv, hw, rfl⟩ := yields_measurement.mp h
      obtain ⟨xs, rfl, hxs⟩ := recognizes_operand.sound hv
      obtain ⟨ys, rfl, hys⟩ := recognizes_operand.sound hw
      exact ⟨⟨.keyword .measure, p⟩ :: xs ++ ⟨.mark .arrow, q⟩ :: ys ++ [⟨.mark .semicolon, s⟩],
        by simp, .measure hxs hys⟩
    · obtain ⟨p, tail, v, rfl, hv, rfl⟩ := yields_resetting.mp h
      obtain ⟨xs, rfl, hxs⟩ := recognizes_operand.sound hv
      exact ⟨⟨.keyword .reset, p⟩ :: xs ++ [⟨.mark .semicolon, s⟩], by simp, .reset hxs⟩
    · obtain ⟨xs, rfl, hxs⟩ := recognizes_call.sound hc
      exact ⟨xs ++ [⟨.mark .semicolon, s⟩], by simp, .call hxs⟩
  complete {_ _ rest} h _ := by
    refine yields_operation.mpr ?_
    cases h with
    | @measure xs ys v w p q r hxs hys =>
      exact ⟨r, Or.inl (yields_measurement.mpr ⟨p, q, _, ys ++ ⟨.mark .semicolon, r⟩ :: rest, v, w,
        by simp, recognizes_operand.complete hxs (by simp [peek]),
        recognizes_operand.complete hys (by simp [peek]), rfl⟩)⟩
    | @reset xs v p q hxs =>
      exact ⟨q, Or.inr (Or.inl (yields_resetting.mpr ⟨p, _, v, by simp,
        recognizes_operand.complete hxs (by simp [peek]), rfl⟩))⟩
    | @call xs c p hxs =>
      rw [List.append_assoc, List.singleton_append]
      exact ⟨p, Or.inr (Or.inr ⟨c, recognizes_call.complete hxs (by simp [peek]), rfl⟩)⟩

/-! ## Gate definitions -/

theorem recognizes_formals : Recognizes (parenthesized? identifierList)
    (IsOptional (IsList IsName)) [.mark .openParen] := by
  refine recognizes_parenthesized recognizes_identifierList (by decide) fun rest h => ?_
  cases h with
  | single hx => cases hx; exact nofun
  | cons hx _ => cases hx; exact nofun

theorem yields_signature {s : Signature} : Yields (signature ts) s rest ↔
    ∃ name p tail formals between arguments, ts = ⟨.identifier name, p⟩ :: tail ∧
      Yields (parenthesized? identifierList tail) formals between ∧
      Yields (identifierList between) arguments rest ∧ s = ⟨name, formals, arguments⟩ := by
  simp only [signature, yields_bind, yields_identifier, yields_pure, exists_prop]
  constructor
  · rintro ⟨name, tail, ⟨p, rfl⟩, formals, between, hformals, arguments, _, harguments, rfl, rfl⟩
    exact ⟨name, p, tail, formals, between, arguments, rfl, hformals, harguments, rfl⟩
  · rintro ⟨name, p, tail, formals, between, arguments, rfl, hformals, harguments, rfl⟩
    exact ⟨name, tail, ⟨p, rfl⟩, formals, between, hformals, arguments, rest, harguments, rfl, rfl⟩

theorem recognizes_signature : Recognizes signature IsSignature [.mark .comma] where
  sound h := by
    obtain ⟨name, p, tail, formals, between, arguments, rfl, hformals, harguments, rfl⟩ :=
      yields_signature.mp h
    obtain ⟨xs, rfl, hxs⟩ := recognizes_formals.sound hformals
    obtain ⟨ys, rfl, hys⟩ := recognizes_identifierList.sound harguments
    exact ⟨⟨.identifier name, p⟩ :: xs ++ ys, by simp, .signature hxs hys⟩
  complete {_ _ rest} h hrest := by
    cases h with
    | @signature name xs ys formals arguments p hxs hys =>
      have hhead : peek (ys ++ rest) ∉ [.mark .openParen] := by
        cases hys with
        | single hy => cases hy; simp [peek]
        | cons hy _ => cases hy; simp [peek]
      exact yields_signature.mpr ⟨name, p, _, formals, ys ++ rest, arguments, by simp,
        recognizes_formals.complete hxs hhead, recognizes_identifierList.complete hys hrest, rfl⟩

theorem yields_barrier {vs : List Operand} : Yields (barrier ts) vs rest ↔
    ∃ p q tail, ts = ⟨.keyword .barrier, p⟩ :: tail ∧
      Yields (operandList tail) vs (⟨.mark .semicolon, q⟩ :: rest) := by
  simp only [barrier, yields_bind, yields_exactly, yields_terminated, yields_pure,
    Parsed.followedBy, Parsed.widen, exists_prop, exists_const]
  constructor
  · rintro ⟨tail, ⟨p, rfl⟩, vs, _, ⟨q, hvs⟩, rfl, rfl⟩
    exact ⟨p, q, tail, rfl, hvs⟩
  · rintro ⟨p, q, tail, rfl, hvs⟩
    exact ⟨tail, ⟨p, rfl⟩, vs, rest, ⟨q, hvs⟩, rfl, rfl⟩

theorem recognizes_bodyStatement : Recognizes bodyStatement IsBodyStatement [] where
  sound {ts s rest} h := by
    have hcall : Yields ((terminated (call ts)).map (Parsed.map fun c => ⟨.call c, here ts⟩)) s
        rest → ∃ xs, ts = xs ++ rest ∧ IsBodyStatement xs s := by
      intro h
      obtain ⟨c, hc, rfl⟩ := yields_map.mp h
      obtain ⟨q, hc⟩ := yields_terminated.mp hc
      obtain ⟨xs, rfl, hxs⟩ := recognizes_call.sound hc
      cases xs with
      | nil => cases hxs
      | cons l xs => exact ⟨l :: xs ++ [⟨.mark .semicolon, q⟩], by simp, .call hxs⟩
    rw [bodyStatement] at h
    split at h
    · obtain ⟨vs, hvs, rfl⟩ := yields_map.mp h
      obtain ⟨p, q, tail, rfl, hoperands⟩ := yields_barrier.mp hvs
      obtain ⟨xs, rfl, hxs⟩ := recognizes_operandList.sound hoperands
      exact ⟨⟨.keyword .barrier, p⟩ :: xs ++ [⟨.mark .semicolon, q⟩], by simp, .barrier hxs⟩
    · exact hcall h
    · exact hcall h
    · exact hcall h
    · exact absurd h yields_error
    · exact absurd h yields_error
  complete {_ _ rest} h _ := by
    cases h with
    | @barrier xs vs p q hxs =>
      refine yields_map.mpr ⟨vs, yields_barrier.mpr
        ⟨p, q, xs ++ ⟨.mark .semicolon, q⟩ :: rest, by simp, ?_⟩, rfl⟩
      exact recognizes_operandList.complete hxs (by simp [peek])
    | @call l xs c q hxs =>
      rw [List.append_assoc, List.singleton_append]
      have hc : Yields (call (l :: xs ++ ⟨.mark .semicolon, q⟩ :: rest)) c
          (⟨.mark .semicolon, q⟩ :: rest) := recognizes_call.complete hxs (by simp [peek])
      have hc := yields_terminated.mpr ⟨q, hc⟩
      rw [bodyStatement]
      rcases peek_of_isCall hxs (⟨.mark .semicolon, q⟩ :: rest) with h | h | ⟨name, h⟩ <;> rw [h]
      · exact yields_map.mpr ⟨c, hc, rfl⟩
      · exact yields_map.mpr ⟨c, hc, rfl⟩
      · exact yields_map.mpr ⟨c, hc, rfl⟩

/-- No statement of a body starts with a brace. -/
theorem peek_ne_of_isBodyStatement {s : BodyStatement} (h : IsBodyStatement xs s)
    (rest : List Lexeme) : peek (xs ++ rest) ≠ .mark .closeBrace := by
  cases h with
  | barrier => exact nofun
  | call hcall =>
    rw [List.append_assoc]
    rcases peek_of_isCall hcall _ with h | h | ⟨name, h⟩ <;> rw [h] <;> exact nofun

/-- A statement of a body, and after it the others up to the brace. -/
theorem yields_body {as : List BodyStatement} : Yields (body ts) as rest ↔
    (∃ p, ts = ⟨.mark .closeBrace, p⟩ :: rest ∧ as = []) ∨
      ∃ a between others, Yields (bodyStatement ts) a between ∧
        Yields (body between) others rest ∧ as = a :: others := by
  rw [body]
  split
  · rename_i h
    obtain ⟨p, tail, rfl⟩ := peek_eq_mark.mp h
    simp only [yields_bind, yields_mark, yields_pure, Parsed.map, exists_prop, exists_const]
    constructor
    · rintro ⟨_, ⟨p, htail⟩, rfl, rfl⟩
      exact Or.inl ⟨p, htail, rfl⟩
    · rintro (⟨p, htail, rfl⟩ | ⟨a, between, others, ha, -⟩)
      · exact ⟨rest, ⟨p, htail⟩, rfl, rfl⟩
      · obtain ⟨xs, hts, hxs⟩ := recognizes_bodyStatement.sound ha
        rw [hts] at h
        exact absurd h (peek_ne_of_isBodyStatement hxs between)
  · rename_i h
    simp only [yields_bind, yields_pure, exists_prop]
    constructor
    · rintro ⟨a, between, ha, others, _, hothers, rfl, rfl⟩
      exact Or.inr ⟨a, between, others, ha, hothers, rfl⟩
    · rintro (⟨p, rfl, -⟩ | ⟨a, between, others, ha, hothers, rfl⟩)
      · exact absurd rfl h
      · exact ⟨a, between, ha, others, rest, hothers, rfl, rfl⟩

theorem sound_body {ts rest : List Lexeme} {as : List BodyStatement}
    (h : Yields (body ts) as rest) :
    ∃ xs p, ts = xs ++ ⟨.mark .closeBrace, p⟩ :: rest ∧ IsMany IsBodyStatement xs as := by
  rcases yields_body.mp h with ⟨p, rfl, rfl⟩ | ⟨a, between, others, ha, hothers, rfl⟩
  · exact ⟨[], p, rfl, .nil⟩
  · have hshorter := ha.shorter
    obtain ⟨xs, hts, hxs⟩ := recognizes_bodyStatement.sound ha
    obtain ⟨ys, p, rfl, hys⟩ := sound_body hothers
    exact ⟨xs ++ ys, p, by simp [hts], .cons hxs hys⟩
termination_by ts.length

theorem complete_body {as : List BodyStatement} (h : IsMany IsBodyStatement xs as)
    (p : SourcePos) (rest : List Lexeme) :
    Yields (body (xs ++ ⟨.mark .closeBrace, p⟩ :: rest)) as rest := by
  induction h with
  | nil => exact yields_body.mpr (Or.inl ⟨p, rfl, rfl⟩)
  | cons hx _ ih =>
    rw [List.append_assoc]
    exact yields_body.mpr (Or.inr ⟨_, _, _,
      recognizes_bodyStatement.complete hx List.not_mem_nil, ih, rfl⟩)

/-! ## Statements -/

theorem yields_register {kind : RegisterKind} {a : Action} :
    Yields (register kind ts) a rest ↔ ∃ name width p q r s t,
      ts = ⟨.identifier name, p⟩ :: ⟨.mark .openBracket, q⟩ :: ⟨.integer width, r⟩ ::
        ⟨.mark .closeBracket, s⟩ :: ⟨.mark .semicolon, t⟩ :: rest ∧
      a = .register kind name width := by
  simp only [register, yields_bind, yields_identifier, yields_mark, yields_integer,
    yields_terminated, yields_pure, exists_prop, exists_const]
  constructor
  · rintro ⟨name, _, ⟨p, rfl⟩, _, ⟨q, rfl⟩, width, _, ⟨r, rfl⟩, _, ⟨t, s, rfl⟩, rfl, rfl⟩
    exact ⟨name, width, p, q, r, s, t, rfl, rfl⟩
  · rintro ⟨name, width, p, q, r, s, t, rfl, rfl⟩
    exact ⟨name, _, ⟨p, rfl⟩, _, ⟨q, rfl⟩, width, _, ⟨r, rfl⟩, rest, ⟨t, s, rfl⟩, rfl, rfl⟩

theorem yields_gateDefinition {a : Action} : Yields (gateDefinition ts) a rest ↔
    ∃ s p between statements, Yields (signature ts) s (⟨.mark .openBrace, p⟩ :: between) ∧
      Yields (body between) statements rest ∧ a = .gate s statements := by
  simp only [gateDefinition, yields_bind, yields_mark, yields_pure, exists_prop, exists_const]
  constructor
  · rintro ⟨s, _, hs, between, ⟨p, rfl⟩, statements, _, hstatements, rfl, rfl⟩
    exact ⟨s, p, between, statements, hs, hstatements, rfl⟩
  · rintro ⟨s, p, between, statements, hs, hstatements, rfl⟩
    exact ⟨s, _, hs, between, ⟨p, rfl⟩, statements, rest, hstatements, rfl, rfl⟩

theorem yields_conditional {a : Action} : Yields (conditional ts) a rest ↔
    ∃ p q r v e o tail value guarded, ts = ⟨.mark .openParen, p⟩ :: tail ∧
      Yields (operand tail) v (⟨.mark .equal, q⟩ :: value) ∧
      Yields (expression value) e (⟨.mark .closeParen, r⟩ :: guarded) ∧
      Yields (operation guarded) o rest ∧ a = .conditional v e o (here guarded) := by
  simp only [conditional, yields_bind, yields_mark, yields_pure, exists_prop, exists_const]
  constructor
  · rintro ⟨tail, ⟨p, rfl⟩, v, _, hv, value, ⟨q, rfl⟩, e, _, he, guarded, ⟨r, rfl⟩, o, _, ho, rfl,
      rfl⟩
    exact ⟨p, q, r, v, e, o, tail, value, guarded, rfl, hv, he, ho, rfl⟩
  · rintro ⟨p, q, r, v, e, o, tail, value, guarded, rfl, hv, he, ho, rfl⟩
    exact ⟨tail, ⟨p, rfl⟩, v, _, hv, value, ⟨q, rfl⟩, e, _, he, guarded, ⟨r, rfl⟩, o, rest, ho, rfl,
      rfl⟩

/-- An operation starts with a lexeme that introduces no other statement. -/
theorem exists_head_of_isOperation {o : Operation} (h : IsOperation xs o) :
    ∃ l tail, xs = l :: tail ∧ (introduced? l.token).isNone := by
  cases h with
  | measure => exact ⟨_, _, rfl, rfl⟩
  | reset => exact ⟨_, _, rfl, rfl⟩
  | call hc => cases hc <;> exact ⟨_, _, rfl, rfl⟩

/-- What a keyword introduces is an action behind that keyword. -/
theorem sound_introduced {token : Token} {read : (ts : List Lexeme) → Reading Action ts}
    {a : Action} (hread : introduced? token = some read) (h : Yields (read ts) a rest) :
    ∃ xs, ts = xs ++ rest ∧ ∀ p, IsAction (⟨token, p⟩ :: xs) a := by
  unfold introduced? at hread
  split at hread <;> cases hread
  · obtain ⟨name, width, p, q, r, s, t, rfl, rfl⟩ := yields_register.mp h
    exact ⟨_, rfl, fun _ => .qreg⟩
  · obtain ⟨name, width, p, q, r, s, t, rfl, rfl⟩ := yields_register.mp h
    exact ⟨_, rfl, fun _ => .creg⟩
  · obtain ⟨s, p, between, statements, hs, hstatements, rfl⟩ := yields_gateDefinition.mp h
    obtain ⟨xs, rfl, hxs⟩ := recognizes_signature.sound hs
    obtain ⟨ys, q, rfl, hys⟩ := sound_body hstatements
    refine ⟨xs ++ ⟨.mark .openBrace, p⟩ :: ys ++ [⟨.mark .closeBrace, q⟩], by simp, fun _ => ?_⟩
    exact .gate hxs hys
  · obtain ⟨s, hs, rfl⟩ := yields_map.mp h
    obtain ⟨q, hs⟩ := yields_terminated.mp hs
    obtain ⟨xs, rfl, hxs⟩ := recognizes_signature.sound hs
    refine ⟨xs ++ [⟨.mark .semicolon, q⟩], by simp, fun _ => ?_⟩
    exact .opaqueGate hxs
  · obtain ⟨vs, hvs, rfl⟩ := yields_map.mp h
    obtain ⟨q, hvs⟩ := yields_terminated.mp hvs
    obtain ⟨xs, rfl, hxs⟩ := recognizes_operandList.sound hvs
    refine ⟨xs ++ [⟨.mark .semicolon, q⟩], by simp, fun _ => ?_⟩
    exact .barrier hxs
  · obtain ⟨p, q, r, v, e, o, tail, value, guarded, rfl, hv, he, ho, rfl⟩ := yields_conditional.mp h
    obtain ⟨xs, rfl, hxs⟩ := recognizes_operand.sound hv
    obtain ⟨ys, rfl, hys⟩ := recognizes_expression.sound he
    obtain ⟨zs, rfl, hzs⟩ := recognizes_operation.sound ho
    obtain ⟨l, zs, rfl, -⟩ := exists_head_of_isOperation hzs
    refine ⟨⟨.mark .openParen, p⟩ :: xs ++ ⟨.mark .equal, q⟩ :: ys ++ ⟨.mark .closeParen, r⟩ ::
      l :: zs, by simp, fun _ => ?_⟩
    exact .conditional hxs hys hzs

theorem yields_statement {s : Statement} : Yields (statement ts) s rest ↔
    ∃ l tail, ts = l :: tail ∧
      ((∃ read a, introduced? l.token = some read ∧ s = ⟨a, l.pos⟩ ∧ Yields (read tail) a rest) ∨
        (introduced? l.token).isNone ∧ ∃ o, Yields (operation ts) o rest ∧
          s = ⟨.operation o, l.pos⟩) := by
  cases ts with
  | nil => exact ⟨fun h => absurd h yields_error, nofun⟩
  | cons l tail =>
    rw [statement]
    cases hread : introduced? l.token with
    | none => simp [yields_map, hread]
    | some read => simp [-bind_pure_comp, yields_bind, yields_pure, hread]

/-- **Statements are read as they are derived.** -/
theorem recognizes_statement : Recognizes statement IsStatement [] where
  sound h := by
    obtain ⟨l, tail, rfl, h⟩ := yields_statement.mp h
    rcases h with ⟨read, a, hread, rfl, ha⟩ | ⟨-, o, ho, rfl⟩
    · obtain ⟨xs, rfl, hxs⟩ := sound_introduced hread ha
      exact ⟨l :: xs, rfl, .statement (hxs l.pos)⟩
    · obtain ⟨xs, hts, hxs⟩ := recognizes_operation.sound ho
      obtain ⟨l, xs, rfl, -⟩ := exists_head_of_isOperation hxs
      cases hts
      exact ⟨l :: xs, rfl, .statement (.operation hxs)⟩
  complete {_ _ rest} h _ := by
    refine yields_statement.mpr ?_
    obtain @⟨l, xs, a, ha⟩ := h
    cases ha with
    | qreg =>
      exact ⟨_, _, rfl, Or.inl ⟨_, _, rfl, rfl,
        yields_register.mpr ⟨_, _, _, _, _, _, _, rfl, rfl⟩⟩⟩
    | creg =>
      exact ⟨_, _, rfl, Or.inl ⟨_, _, rfl, rfl,
        yields_register.mpr ⟨_, _, _, _, _, _, _, rfl, rfl⟩⟩⟩
    | @gate xs ys s statements p q r hxs hys =>
      refine ⟨_, xs ++ ⟨.mark .openBrace, q⟩ :: (ys ++ ⟨.mark .closeBrace, r⟩ :: rest), by simp,
        Or.inl ⟨_, _, rfl, rfl, yields_gateDefinition.mpr ⟨s, q, _, statements, ?_,
          complete_body hys r rest, rfl⟩⟩⟩
      exact recognizes_signature.complete hxs (by simp [peek])
    | @opaqueGate xs s p q hxs =>
      refine ⟨_, xs ++ ⟨.mark .semicolon, q⟩ :: rest, by simp, Or.inl ⟨_, _, rfl, rfl,
        yields_map.mpr ⟨s, yields_terminated.mpr ⟨q, ?_⟩, rfl⟩⟩⟩
      exact recognizes_signature.complete hxs (by simp [peek])
    | @barrier xs vs p q hxs =>
      refine ⟨_, xs ++ ⟨.mark .semicolon, q⟩ :: rest, by simp, Or.inl ⟨_, _, rfl, rfl,
        yields_map.mpr ⟨vs, yields_terminated.mpr ⟨q, ?_⟩, rfl⟩⟩⟩
      exact recognizes_operandList.complete hxs (by simp [peek])
    | @conditional l xs ys zs v e o p q r s hxs hys hzs =>
      -- what the condition guards, and the lexemes from the value on
      let guarded := l :: zs ++ rest
      let value := ys ++ ⟨.mark .closeParen, s⟩ :: guarded
      refine ⟨_, ⟨.mark .openParen, q⟩ :: (xs ++ ⟨.mark .equal, r⟩ :: value),
        by simp [value, guarded], Or.inl ⟨_, _, rfl, rfl, yields_conditional.mpr
          ⟨q, r, s, v, e, o, _, value, guarded, rfl, ?_, ?_, ?_, rfl⟩⟩⟩
      · exact recognizes_operand.complete hxs (by simp [peek])
      · exact recognizes_expression.complete hys (by simp [peek, extending])
      · exact recognizes_operation.complete hzs List.not_mem_nil
    | operation ho =>
      obtain ⟨l, xs, heq, hhead⟩ := exists_head_of_isOperation ho
      cases heq
      exact ⟨l, xs ++ rest, rfl, Or.inr ⟨hhead, _,
        recognizes_operation.complete ho List.not_mem_nil, rfl⟩⟩

end OpenQasm.Parse
