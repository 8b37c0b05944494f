import OpenQasm.Proofs.Reading

/-!
# Expressions are read as they are derived

Each reader of expressions has one equation in terms of what the others yield, without the proofs
that its recursion carries. Soundness follows the recursion of the readers. Completeness is by
induction on the derivation: since the operands of a sum are collected from the left, a derived sum
`xs` followed by `rest` is read as the sum that is still being collected when `rest` is met
(`ReadsAs`), and likewise for products.
-/

namespace OpenQasm.Parse

open Grammar

variable {ts rest : List Lexeme} {e : Expr}

/-! ## Equations -/

theorem yields_expression : Yields (expression ts) e rest ↔
    ∃ a between, Yields (term ts) a between ∧ Yields (moreTerms a between) e rest := by
  rw [expression]
  simp [-bind_pure_comp, yields_bind, yields_pure]

theorem yields_term : Yields (term ts) e rest ↔
    ∃ a between, Yields (unary ts) a between ∧ Yields (moreFactors a between) e rest := by
  rw [term]
  simp [-bind_pure_comp, yields_bind, yields_pure]

theorem yields_moreTerms {a : Expr} : Yields (moreTerms a ts) e rest ↔
    (sumOp? (peek ts) = none ∧ e = a ∧ rest = ts) ∨
      ∃ l tail op b between, ts = l :: tail ∧ sumOp? l.token = some op ∧
        Yields (term tail) b between ∧ Yields (moreTerms (.binary op a b) between) e rest := by
  rw [moreTerms.eq_def]
  cases ts with
  | nil => simp [yields_pure, Parsed.unread, peek, sumOp?]
  | cons l tail =>
    cases hop : sumOp? l.token with
    | none => simp [yields_pure, Parsed.unread, peek, hop]
    | some op => simp [-bind_pure_comp, yields_bind, yields_pure, peek, hop]

theorem yields_moreFactors {a : Expr} : Yields (moreFactors a ts) e rest ↔
    (productOp? (peek ts) = none ∧ e = a ∧ rest = ts) ∨
      ∃ l tail op b between, ts = l :: tail ∧ productOp? l.token = some op ∧
        Yields (unary tail) b between ∧ Yields (moreFactors (.binary op a b) between) e rest := by
  rw [moreFactors.eq_def]
  cases ts with
  | nil => simp [yields_pure, Parsed.unread, peek, productOp?]
  | cons l tail =>
    cases hop : productOp? l.token with
    | none => simp [yields_pure, Parsed.unread, peek, hop]
    | some op => simp [-bind_pure_comp, yields_bind, yields_pure, peek, hop]

theorem yields_unary : Yields (unary ts) e rest ↔
    (∃ p tail target, ts = ⟨.mark .minus, p⟩ :: tail ∧ e = .neg target p ∧
      Yields (unary tail) target rest) ∨ peek ts ≠ .mark .minus ∧ Yields (power ts) e rest := by
  rw [unary.eq_def]
  match ts with
  | [] => simp [peek]
  | ⟨token, p⟩ :: tail =>
    by_cases hminus : token = .mark .minus
    · subst hminus
      simp [-bind_pure_comp, yields_bind, yields_pure, peek]
    · simp [peek, hminus]

theorem yields_power : Yields (power ts) e rest ↔
    ∃ base between, Yields (atom ts) base between ∧
      ((peek between ≠ .mark .caret ∧ e = base ∧ rest = between) ∨
        ∃ p tail exponent, between = ⟨.mark .caret, p⟩ :: tail ∧
          e = .binary .pow base exponent ∧ Yields (unary tail) exponent rest) := by
  rw [power, yields_bind]
  refine exists_congr fun base => exists_congr fun between => ?_
  rw [← exists_prop]
  refine exists_congr fun h => ?_
  match between with
  | [] => simp [yields_pure, peek]
  | ⟨token, p⟩ :: tail =>
    by_cases hcaret : token = .mark .caret
    · subst hcaret
      simp [-bind_pure_comp, yields_bind, yields_pure, peek]
    · simp [yields_pure, peek, hcaret]

theorem yields_atom : Yields (atom ts) e rest ↔
    (∃ f p q tail target r, ts = ⟨.keyword (.call f), p⟩ :: ⟨.mark .openParen, q⟩ :: tail ∧
        e = .call f target p ∧ Yields (expression tail) target (⟨.mark .closeParen, r⟩ :: rest)) ∨
      (∃ p tail q, ts = ⟨.mark .openParen, p⟩ :: tail ∧
        Yields (expression tail) e (⟨.mark .closeParen, q⟩ :: rest)) ∨
      (∃ v, e = .operand v ∧ Yields (operand ts) v rest) ∨
      ∃ l, ts = l :: rest ∧ literal? l.pos l.token = some e := by
  rw [atom.eq_def]
  match ts with
  | [] => simp [yields_error, yields_operand]
  | ⟨token, p⟩ :: tail =>
    cases token with
    | keyword word =>
      cases word with
      | call f =>
        simp only [List.length_cons, yields_bind, yields_pure, yields_mark, exists_and_left,
          exists_prop, ↓existsAndEq, and_true, exists_const, List.cons.injEq, Lexeme.mk.injEq,
          Token.keyword.injEq, Keyword.call.injEq, true_and, reduceCtorEq, false_and,
          yields_operand, and_false, exists_false, literal?, or_self, or_false]
        constructor
        · rintro ⟨between, ⟨q, rfl⟩, target, rfl, r, h⟩
          exact ⟨q, between, rfl, target, rfl, r, h⟩
        · rintro ⟨q, between, rfl, target, rfl, r, h⟩
          exact ⟨between, ⟨q, rfl⟩, target, rfl, r, h⟩
      | pi => simp [yields_pure, yields_operand, literal?, eq_comm, and_comm]
      | _ => simp [yields_error, yields_operand, literal?]
    | mark m =>
      cases m with
      | openParen =>
        simp [-bind_pure_comp, yields_bind, yields_pure, yields_mark, yields_operand, literal?]
      | _ => simp [yields_error, yields_operand, literal?]
    | identifier name =>
      simp [-bind_pure_comp, yields_bind, yields_pure, Parsed.map, literal?]
    | real value => simp [yields_pure, yields_operand, literal?, eq_comm, and_comm]
    | integer value => simp [yields_pure, yields_operand, literal?, eq_comm, and_comm]
    | string text => simp [yields_error, yields_operand, literal?]
    | endOfFile => simp [yields_error, yields_operand, literal?]

theorem sumOp?_eq_some_iff {token : Token} {op : BinaryOp} : sumOp? token = some op ↔
    op = .add ∧ token = .mark .plus ∨ op = .sub ∧ token = .mark .minus := by
  unfold sumOp?
  split <;> simp_all [eq_comm]

theorem productOp?_eq_some_iff {token : Token} {op : BinaryOp} : productOp? token = some op ↔
    op = .mul ∧ token = .mark .times ∨ op = .div ∧ token = .mark .divide := by
  unfold productOp?
  split <;> simp_all [eq_comm]

theorem isExpr_literal {l : Lexeme} (h : literal? l.pos l.token = some e) :
    IsExpr .atom [l] e := by
  obtain ⟨token, p⟩ := l
  dsimp only at h
  unfold literal? at h
  split at h <;> cases h
  · exact .real
  · exact .integer
  · exact .pi

/-! ## Soundness -/

mutual

theorem sound_expression {ts rest : List Lexeme} {e : Expr}
    (h : Yields (expression ts) e rest) : ∃ xs, ts = xs ++ rest ∧ IsExpr .sum xs e := by
  obtain ⟨a, between, ha, hmore⟩ := yields_expression.mp h
  have hshorter := ha.shorter
  obtain ⟨xs, hts, hxs⟩ := sound_term ha
  obtain ⟨ys, hbetween, hys⟩ := sound_moreTerms hmore (.product hxs)
  exact ⟨xs ++ ys, by rw [hts, hbetween, List.append_assoc], hys⟩
termination_by 6 * ts.length + 5

/-- What was collected before is part of the sum. -/
theorem sound_moreTerms {ts rest before : List Lexeme} {a e : Expr}
    (h : Yields (moreTerms a ts) e rest) (ha : IsExpr .sum before a) :
    ∃ xs, ts = xs ++ rest ∧ IsExpr .sum (before ++ xs) e := by
  rcases yields_moreTerms.mp h with ⟨-, rfl, rfl⟩ | ⟨l, tail, op, b, between, hts, hop, hb, hmore⟩
  · exact ⟨[], rfl, by rwa [List.append_nil]⟩
  · have hlength : ts.length = tail.length + 1 := by rw [hts, List.length_cons]
    have hshorter := hb.shorter
    obtain ⟨ys, htail, hys⟩ := sound_term hb
    obtain ⟨token, p⟩ := l
    have hsum : IsExpr .sum (before ++ ⟨token, p⟩ :: ys) (.binary op a b) := by
      rcases sumOp?_eq_some_iff.mp hop with ⟨rfl, htoken⟩ | ⟨rfl, htoken⟩
      · cases htoken
        exact .add ha hys
      · cases htoken
        exact .sub ha hys
    obtain ⟨zs, hbetween, hzs⟩ := sound_moreTerms hmore hsum
    exact ⟨⟨token, p⟩ :: ys ++ zs, by simp [hts, htail, hbetween], by simpa using hzs⟩
termination_by 6 * ts.length

theorem sound_term {ts rest : List Lexeme} {e : Expr} (h : Yields (term ts) e rest) :
    ∃ xs, ts = xs ++ rest ∧ IsExpr .product xs e := by
  obtain ⟨a, between, ha, hmore⟩ := yields_term.mp h
  have hshorter := ha.shorter
  obtain ⟨xs, hts, hxs⟩ := sound_unary ha
  obtain ⟨ys, hbetween, hys⟩ := sound_moreFactors hmore (.unary hxs)
  exact ⟨xs ++ ys, by rw [hts, hbetween, List.append_assoc], hys⟩
termination_by 6 * ts.length + 4

/-- What was collected before is part of the product. -/
theorem sound_moreFactors {ts rest before : List Lexeme} {a e : Expr}
    (h : Yields (moreFactors a ts) e rest) (ha : IsExpr .product before a) :
    ∃ xs, ts = xs ++ rest ∧ IsExpr .product (before ++ xs) e := by
  rcases yields_moreFactors.mp h with
    ⟨-, rfl, rfl⟩ | ⟨l, tail, op, b, between, hts, hop, hb, hmore⟩
  · exact ⟨[], rfl, by rwa [List.append_nil]⟩
  · have hlength : ts.length = tail.length + 1 := by rw [hts, List.length_cons]
    have hshorter := hb.shorter
    obtain ⟨ys, htail, hys⟩ := sound_unary hb
    obtain ⟨token, p⟩ := l
    have hproduct : IsExpr .product (before ++ ⟨token, p⟩ :: ys) (.binary op a b) := by
      rcases productOp?_eq_some_iff.mp hop with ⟨rfl, htoken⟩ | ⟨rfl, htoken⟩
      · cases htoken
        exact .mul ha hys
      · cases htoken
        exact .div ha hys
    obtain ⟨zs, hbetween, hzs⟩ := sound_moreFactors hmore hproduct
    exact ⟨⟨token, p⟩ :: ys ++ zs, by simp [hts, htail, hbetween], by simpa using hzs⟩
termination_by 6 * ts.length

theorem sound_unary {ts rest : List Lexeme} {e : Expr} (h : Yields (unary ts) e rest) :
    ∃ xs, ts = xs ++ rest ∧ IsExpr .unary xs e := by
  rcases yields_unary.mp h with ⟨p, tail, target, hts, rfl, htarget⟩ | ⟨-, hpower⟩
  · have hlength : ts.length = tail.length + 1 := by rw [hts, List.length_cons]
    obtain ⟨xs, htail, hxs⟩ := sound_unary htarget
    exact ⟨⟨.mark .minus, p⟩ :: xs, by rw [hts, htail, List.cons_append], .neg hxs⟩
  · obtain ⟨xs, hts, hxs⟩ := sound_power hpower
    exact ⟨xs, hts, .power hxs⟩
termination_by 6 * ts.length + 3

theorem sound_power {ts rest : List Lexeme} {e : Expr} (h : Yields (power ts) e rest) :
    ∃ xs, ts = xs ++ rest ∧ IsExpr .power xs e := by
  obtain ⟨base, between, hbase, hexponent⟩ := yields_power.mp h
  have hshorter := hbase.shorter
  obtain ⟨xs, hts, hxs⟩ := sound_atom hbase
  rcases hexponent with ⟨-, rfl, rfl⟩ | ⟨p, tail, exponent, hbetween, rfl, hexponent⟩
  · exact ⟨xs, hts, .atom hxs⟩
  · rw [hbetween, List.length_cons] at hshorter
    obtain ⟨ys, htail, hys⟩ := sound_unary hexponent
    exact ⟨xs ++ ⟨.mark .caret, p⟩ :: ys, by simp [hts, hbetween, htail], .pow hxs hys⟩
termination_by 6 * ts.length + 2

theorem sound_atom {ts rest : List Lexeme} {e : Expr} (h : Yields (atom ts) e rest) :
    ∃ xs, ts = xs ++ rest ∧ IsExpr .atom xs e := by
  rcases yields_atom.mp h with ⟨f, p, q, tail, target, r, hts, rfl, htarget⟩ |
    ⟨p, tail, q, hts, htarget⟩ | ⟨v, rfl, hoperand⟩ | ⟨l, rfl, hl⟩
  · have hlength : ts.length = tail.length + 2 := by rw [hts, List.length_cons, List.length_cons]
    obtain ⟨xs, htail, hxs⟩ := sound_expression htarget
    exact ⟨⟨.keyword (.call f), p⟩ :: ⟨.mark .openParen, q⟩ :: xs ++ [⟨.mark .closeParen, r⟩],
      by simp [hts, htail], .call hxs⟩
  · have hlength : ts.length = tail.length + 1 := by rw [hts, List.length_cons]
    obtain ⟨xs, htail, hxs⟩ := sound_expression htarget
    exact ⟨⟨.mark .openParen, p⟩ :: xs ++ [⟨.mark .closeParen, q⟩], by simp [hts, htail],
      .group hxs⟩
  · obtain ⟨xs, hts, hxs⟩ := recognizes_operand.sound hoperand
    exact ⟨xs, hts, .operand hxs⟩
  · exact ⟨[l], rfl, isExpr_literal hl⟩
termination_by 6 * ts.length + 1

end

/-! ## Completeness -/

/-- The tokens that could extend what a nonterminal derives. -/
def extending : Level → List Token
  | .sum => [.mark .plus, .mark .minus, .mark .times, .mark .divide, .mark .caret,
      .mark .openBracket]
  | .product => [.mark .times, .mark .divide, .mark .caret, .mark .openBracket]
  | .unary => [.mark .caret, .mark .openBracket]
  | .power => [.mark .caret, .mark .openBracket]
  | .atom => [.mark .openBracket]

/-- What is derived never starts with a closing parenthesis, and below a sign never with a minus. -/
theorem peek_ne_of_isExpr {level : Level} {xs : List Lexeme} (h : IsExpr level xs e)
    (rest : List Lexeme) : peek (xs ++ rest) ≠ .mark .closeParen ∧
      (level = .power ∨ level = .atom → peek (xs ++ rest) ≠ .mark .minus) := by
  induction h generalizing rest with
  | product _ ih | unary _ ih | power _ ih => exact ⟨(ih rest).1, nofun⟩
  | atom _ ih => exact ⟨(ih rest).1, fun _ => (ih rest).2 (Or.inr rfl)⟩
  | add _ _ ih _ | sub _ _ ih _ | mul _ _ ih _ | div _ _ ih _ =>
    rw [List.append_assoc]
    exact ⟨(ih _).1, nofun⟩
  | pow _ _ ih _ =>
    rw [List.append_assoc]
    exact ⟨(ih _).1, fun _ => (ih _).2 (Or.inr rfl)⟩
  | neg => exact ⟨nofun, nofun⟩
  | operand hv => cases hv <;> exact ⟨nofun, fun _ => nofun⟩
  | _ => exact ⟨nofun, fun _ => nofun⟩

/-- How what is derived is read when `rest` follows, which cannot extend its operands. A sum and a
product are collected up to `rest`, whatever is collected from there on. -/
def ReadsAs : Level → List Lexeme → Expr → Prop
  | .sum, xs, a => ∀ rest b last, peek rest ∉ extending .product →
      Yields (moreTerms a rest) b last → Yields (expression (xs ++ rest)) b last
  | .product, xs, a => ∀ rest b last, peek rest ∉ extending .unary →
      Yields (moreFactors a rest) b last → Yields (term (xs ++ rest)) b last
  | .unary, xs, a => ∀ rest, peek rest ∉ extending .unary → Yields (unary (xs ++ rest)) a rest
  | .power, xs, a => ∀ rest, peek rest ∉ extending .power → Yields (power (xs ++ rest)) a rest
  | .atom, xs, a => ∀ rest, peek rest ∉ extending .atom → Yields (atom (xs ++ rest)) a rest

namespace ReadsAs

variable {xs ys : List Lexeme} {a b : Expr} {p : SourcePos}

/-- A sum that nothing extends is collected to its end. -/
theorem expression (h : ReadsAs .sum xs a) (hrest : peek rest ∉ extending .sum) :
    Yields (Parse.expression (xs ++ rest)) a rest := by
  simp only [extending, List.mem_cons, not_or] at hrest
  refine h rest a rest (by simp [extending, hrest]) (yields_moreTerms.mpr (Or.inl ⟨?_, rfl, rfl⟩))
  cases hop : sumOp? (peek rest) with
  | none => rfl
  | some op => rcases sumOp?_eq_some_iff.mp hop with ⟨-, h⟩ | ⟨-, h⟩ <;> simp_all

/-- A product that nothing extends is collected to its end. -/
theorem term (h : ReadsAs .product xs a) (hrest : peek rest ∉ extending .product) :
    Yields (Parse.term (xs ++ rest)) a rest := by
  simp only [extending, List.mem_cons, not_or] at hrest
  refine h rest a rest (by simp [extending, hrest]) (yields_moreFactors.mpr (Or.inl ⟨?_, rfl, rfl⟩))
  cases hop : productOp? (peek rest) with
  | none => rfl
  | some op => rcases productOp?_eq_some_iff.mp hop with ⟨-, h⟩ | ⟨-, h⟩ <;> simp_all

/-- One more term. -/
theorem sum {op : BinaryOp} {m : Mark} (hop : sumOp? (.mark m) = some op)
    (ha : ReadsAs .sum xs a) (hb : ReadsAs .product ys b) :
    ReadsAs .sum (xs ++ ⟨.mark m, p⟩ :: ys) (.binary op a b) := by
  intro rest c last hrest hmore
  rw [List.append_assoc]
  refine ha _ c last ?_ ?_
  · rcases sumOp?_eq_some_iff.mp hop with ⟨-, h⟩ | ⟨-, h⟩ <;> cases h <;> simp [extending, peek]
  · exact yields_moreTerms.mpr (Or.inr ⟨_, _, op, b, rest, rfl, hop, hb.term hrest, hmore⟩)

/-- One more factor. -/
theorem product {op : BinaryOp} {m : Mark} (hop : productOp? (.mark m) = some op)
    (ha : ReadsAs .product xs a) (hb : ReadsAs .unary ys b) :
    ReadsAs .product (xs ++ ⟨.mark m, p⟩ :: ys) (.binary op a b) := by
  intro rest c last hrest hmore
  rw [List.append_assoc]
  refine ha _ c last ?_ ?_
  · rcases productOp?_eq_some_iff.mp hop with ⟨-, h⟩ | ⟨-, h⟩ <;> cases h <;> simp [extending, peek]
  · exact yields_moreFactors.mpr (Or.inr ⟨_, _, op, b, rest, rfl, hop, hb rest hrest, hmore⟩)

end ReadsAs

/-- **What is derived is read so**, by induction on the derivation. -/
theorem readsAs_of_isExpr {level : Level} {xs : List Lexeme} (h : IsExpr level xs e) :
    ReadsAs level xs e := by
  induction h with
  | product _ ih =>
    intro rest b last hrest hmore
    exact yields_expression.mpr ⟨_, rest, ih.term hrest, hmore⟩
  | add _ _ iha ihb | sub _ _ iha ihb => exact .sum rfl iha ihb
  | unary _ ih =>
    intro rest b last hrest hmore
    exact yields_term.mpr ⟨_, rest, ih rest hrest, hmore⟩
  | mul _ _ iha ihb | div _ _ iha ihb => exact .product rfl iha ihb
  | power hpower ih =>
    intro rest hrest
    exact yields_unary.mpr (Or.inr ⟨(peek_ne_of_isExpr hpower rest).2 (Or.inl rfl), ih rest hrest⟩)
  | neg _ ih =>
    intro rest hrest
    exact yields_unary.mpr (Or.inl ⟨_, _, _, rfl, rfl, ih rest hrest⟩)
  | atom _ ih =>
    intro rest hrest
    simp only [extending, List.mem_cons, not_or] at hrest
    exact yields_power.mpr ⟨_, rest, ih rest (by simp [extending, hrest]),
      Or.inl ⟨hrest.1, rfl, rfl⟩⟩
  | pow _ _ iha ihb =>
    intro rest hrest
    rw [List.append_assoc]
    exact yields_power.mpr ⟨_, _, iha _ (by simp [extending, peek]),
      Or.inr ⟨_, _, _, rfl, rfl, ihb rest hrest⟩⟩
  | real | integer | pi =>
    exact fun rest _ => yields_atom.mpr (Or.inr (Or.inr (Or.inr ⟨_, rfl, rfl⟩)))
  | operand hv =>
    intro rest hrest
    exact yields_atom.mpr (Or.inr (Or.inr (Or.inl ⟨_, rfl, recognizes_operand.complete hv hrest⟩)))
  | call _ ih =>
    rw [ReadsAs]
    intro rest _
    simp only [List.cons_append]
    rw [List.append_assoc, List.singleton_append]
    exact yields_atom.mpr (Or.inl ⟨_, _, _, _, _, _, rfl, rfl,
      ih.expression (by simp [extending, peek])⟩)
  | group _ ih =>
    rw [ReadsAs]
    intro rest _
    simp only [List.cons_append]
    rw [List.append_assoc, List.singleton_append]
    exact yields_atom.mpr (Or.inr (Or.inl ⟨_, _, _, rfl,
      ih.expression (by simp [extending, peek])⟩))

/-! ## Recognition -/

/-- **Expressions are read as they are derived.** -/
theorem recognizes_expression : Recognizes expression (IsExpr .sum) (extending .sum) where
  sound := sound_expression
  complete h hrest := (readsAs_of_isExpr h).expression hrest

theorem recognizes_expressionList : Recognizes expressionList (IsList (IsExpr .sum))
    (.mark .comma :: extending .sum) :=
  recognizes_commaList recognizes_expression (by decide)

theorem peek_ne_of_isExprList {xs : List Lexeme} {es : List Expr} (rest : List Lexeme)
    (h : IsList (IsExpr .sum) xs es) : peek (xs ++ rest) ≠ .mark .closeParen := by
  cases h with
  | single he => exact (peek_ne_of_isExpr he rest).1
  | cons he _ =>
    rw [List.append_assoc]
    exact (peek_ne_of_isExpr he _).1

end OpenQasm.Parse
