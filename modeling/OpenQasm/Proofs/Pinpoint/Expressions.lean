import OpenQasm.Proofs.Expressions
import OpenQasm.Proofs.Pinpoint

/-!
# Where reading an expression fails

Each reader of expressions has one equation in terms of the others as steps on the lexemes that are
left, and it pinpoints its errors since the others do. What is collected of a sum or a product
before an operator is part of what is viable behind it.
-/

namespace OpenQasm.Parse

open Grammar

variable {ts : List Lexeme}

/-! ## Equations -/

theorem plain_expression : plain expression ts =
    (do let a ← plain term
        plain (moreTerms a) : Reader Expr) ts := by
  show bare (expression ts) = _
  rw [expression]
  exact bare_bind rfl fun p => bare_pass _ _

theorem plain_term : plain term ts =
    (do let a ← plain unary
        plain (moreFactors a) : Reader Expr) ts := by
  show bare (term ts) = _
  rw [term]
  exact bare_bind rfl fun p => bare_pass _ _

theorem plain_moreTerms_none {a : Expr} (h : sumOp? (peek ts) = none) :
    plain (moreTerms a) ts = (pure a : Reader Expr) ts := by
  show bare (moreTerms a ts) = _
  rw [moreTerms.eq_def]
  cases ts with
  | nil => rfl
  | cons l rest =>
    dsimp only [peek] at h
    simp only [h]
    rfl

theorem plain_moreTerms_some {a : Expr} {m : Mark} {op : BinaryOp}
    (hop : sumOp? (.mark m) = some op) (h : peek ts = .mark m) : plain (moreTerms a) ts =
    (do plain (mark m)
        let b ← plain term
        plain (moreTerms (.binary op a b)) : Reader Expr) ts := by
  obtain ⟨p, rest, rfl⟩ := peek_eq_mark.mp h
  refine .trans ?_ (plain_exactly_bind _).symm
  show bare (moreTerms a _) = _
  rw [moreTerms.eq_def]
  simp only [hop]
  exact bare_bind rfl fun b => bare_pass _ _

theorem plain_moreFactors_none {a : Expr} (h : productOp? (peek ts) = none) :
    plain (moreFactors a) ts = (pure a : Reader Expr) ts := by
  show bare (moreFactors a ts) = _
  rw [moreFactors.eq_def]
  cases ts with
  | nil => rfl
  | cons l rest =>
    dsimp only [peek] at h
    simp only [h]
    rfl

theorem plain_moreFactors_some {a : Expr} {m : Mark} {op : BinaryOp}
    (hop : productOp? (.mark m) = some op) (h : peek ts = .mark m) : plain (moreFactors a) ts =
    (do plain (mark m)
        let b ← plain unary
        plain (moreFactors (.binary op a b)) : Reader Expr) ts := by
  obtain ⟨p, rest, rfl⟩ := peek_eq_mark.mp h
  refine .trans ?_ (plain_exactly_bind _).symm
  show bare (moreFactors a _) = _
  rw [moreFactors.eq_def]
  simp only [hop]
  exact bare_bind rfl fun b => bare_pass _ _

theorem plain_unary_minus {p : SourcePos} (h : peek ts = .mark .minus) (hp : here ts = p) :
    plain unary ts =
    (do plain (mark .minus)
        let e ← plain unary
        pure (.neg e p) : Reader Expr) ts := by
  obtain ⟨q, rest, rfl⟩ := peek_eq_mark.mp h
  obtain rfl : q = p := hp
  refine .trans ?_ (plain_exactly_bind _).symm
  show bare (unary _) = _
  rw [unary.eq_def]
  dsimp only
  rw [if_pos rfl]
  exact bare_bind rfl fun _ => rfl

theorem plain_unary_power (h : peek ts ≠ .mark .minus) : plain unary ts = plain power ts := by
  show bare (unary ts) = bare (power ts)
  rw [unary.eq_def]
  match ts with
  | [] => rfl
  | l :: rest => exact congrArg bare (if_neg h)

/-- The exponent that a caret introduces behind a base. -/
def raised (base : Expr) : Reader Expr := fun ts =>
  if peek ts = .mark .caret then
    (do plain (mark .caret)
        let exponent ← plain unary
        pure (.binary .pow base exponent) : Reader Expr) ts
  else (pure base : Reader Expr) ts

theorem plain_power : plain power ts = (plain atom >>= raised) ts := by
  show bare (power ts) = _
  rw [power]
  refine bare_bind rfl fun base => ?_
  obtain ⟨a, between, hshorter⟩ := base
  cases between with
  | nil => exact (if_neg (show Token.endOfFile ≠ .mark .caret by decide)).symm
  | cons l rest =>
    obtain ⟨token, p⟩ := l
    dsimp only
    by_cases hcaret : token = .mark .caret
    · subst hcaret
      rw [if_pos rfl]
      refine .trans ?_ ((if_pos rfl).trans (plain_exactly_bind _)).symm
      exact bare_bind rfl fun _ => rfl
    · rw [if_neg hcaret]
      exact (if_neg hcaret).symm

theorem plain_atom_call {f : Function} {p : SourcePos} (h : peek ts = .keyword (.call f))
    (hp : here ts = p) : plain atom ts =
    (do plain (exactly (.keyword (.call f)))
        plain (mark .openParen)
        let e ← plain expression
        plain (mark .closeParen)
        pure (.call f e p) : Reader Expr) ts := by
  obtain ⟨q, rest, rfl⟩ := peek_eq_keyword.mp h
  obtain rfl : q = p := hp
  refine .trans ?_ (plain_exactly_bind _).symm
  show bare (atom _) = _
  rw [atom.eq_def]
  exact bare_bind rfl fun _ => bare_bind rfl fun _ => bare_bind rfl fun _ => rfl

theorem plain_atom_group (h : peek ts = .mark .openParen) : plain atom ts =
    (do plain (mark .openParen)
        let e ← plain expression
        plain (mark .closeParen)
        pure e : Reader Expr) ts := by
  obtain ⟨q, rest, rfl⟩ := peek_eq_mark.mp h
  refine .trans ?_ (plain_exactly_bind _).symm
  show bare (atom _) = _
  rw [atom.eq_def]
  exact bare_bind rfl fun _ => bare_bind rfl fun _ => rfl

theorem plain_atom_operand {x : String} (h : peek ts = .identifier x) : plain atom ts =
    (do let v ← plain operand
        pure (.operand v) : Reader Expr) ts := by
  obtain ⟨q, rest, rfl⟩ := (peek_eq_iff (show Token.identifier x ≠ .endOfFile from nofun)).mp h
  show bare (atom _) = _
  rw [atom.eq_def]
  exact bare_bind rfl fun _ => rfl

theorem plain_atom_literal {p : SourcePos} (hcall : ∀ f, peek ts ≠ .keyword (.call f))
    (hgroup : peek ts ≠ .mark .openParen) (hoperand : ∀ x, peek ts ≠ .identifier x)
    (hp : here ts = p) : plain atom ts = plain (next .expression (literal? p)) ts := by
  subst hp
  show bare (atom ts) = bare (next _ _ ts)
  rw [atom.eq_def]
  match ts with
  | [] => rfl
  | ⟨token, p⟩ :: rest =>
    dsimp only [here, next]
    split
    · exact absurd rfl (hcall _)
    · exact absurd rfl hgroup
    · exact absurd rfl (hoperand _)
    · cases literal? p token <;> rfl

/-- What goes on with a sum is an operator and one more term. -/
theorem sumOp?_cases (token : Token) : sumOp? token = none ∨
    ∃ m op, token = .mark m ∧ sumOp? (.mark m) = some op ∧
      ∀ {xs ys : List Lexeme} {a b : Expr} {p : SourcePos}, IsExpr .sum xs a →
        IsExpr .product ys b → IsExpr .sum (xs ++ ⟨.mark m, p⟩ :: ys) (.binary op a b) := by
  cases hop : sumOp? token with
  | none => exact Or.inl rfl
  | some op =>
    rcases sumOp?_eq_some_iff.mp hop with ⟨rfl, rfl⟩ | ⟨rfl, rfl⟩
    · exact Or.inr ⟨_, _, rfl, hop, .add⟩
    · exact Or.inr ⟨_, _, rfl, hop, .sub⟩

/-- What goes on with a product is an operator and one more factor. -/
theorem productOp?_cases (token : Token) : productOp? token = none ∨
    ∃ m op, token = .mark m ∧ productOp? (.mark m) = some op ∧
      ∀ {xs ys : List Lexeme} {a b : Expr} {p : SourcePos}, IsExpr .product xs a →
        IsExpr .unary ys b → IsExpr .product (xs ++ ⟨.mark m, p⟩ :: ys) (.binary op a b) := by
  cases hop : productOp? token with
  | none => exact Or.inl rfl
  | some op =>
    rcases productOp?_eq_some_iff.mp hop with ⟨rfl, rfl⟩ | ⟨rfl, rfl⟩
    · exact Or.inr ⟨_, _, rfl, hop, .mul⟩
    · exact Or.inr ⟨_, _, rfl, hop, .div⟩

/-! ## Pinpointing -/

mutual

/-- **Expressions pinpoint their errors**, following the recursion of the readers. -/
theorem pinpoints_expression (ts : List Lexeme) :
    Pinpoints (plain expression) (Viable (IsExpr .sum)) ts := by
  refine .congr (fun _ _ => plain_expression) ?_
  refine .step (pinpoints_term ts) sound_term (fun ys h => ?_) fun xs a rest ha _ =>
    pinpoints_moreTerms (.product ha) rest
  exact h.within fun h => ⟨_, _, .product h, List.prefix_append ..⟩
termination_by 6 * ts.length + 5

/-- What was collected before is part of what is viable. -/
theorem pinpoints_moreTerms {before : List Lexeme} {a : Expr} (ha : IsExpr .sum before a)
    (ts : List Lexeme) :
    Pinpoints (plain (moreTerms a)) (fun ys => Viable (IsExpr .sum) (before ++ ys)) ts := by
  rcases sumOp?_cases (peek ts) with hnone | ⟨m, op, hm, hop, hsum⟩
  · exact .congr (fun _ h => plain_moreTerms_none (by rwa [peek_of_head h])) (.pure a)
  refine .congr (fun _ h => plain_moreTerms_some hop ((peek_of_head h).trans hm)) ?_
  refine .mark (.of_start ha (by simp)) fun p tail _ => ?_
  refine .step (pinpoints_term tail) sound_term (fun ys h => ?_) fun xs b rest hb _ => ?_
  · exact h.within fun h => ⟨_, _, hsum (p := p) ha h, by simp⟩
  · refine (pinpoints_moreTerms (hsum (p := p) ha hb) rest).mono fun ys h => ?_
    rwa [List.append_assoc] at h
termination_by 6 * ts.length

theorem pinpoints_term (ts : List Lexeme) :
    Pinpoints (plain term) (Viable (IsExpr .product)) ts := by
  refine .congr (fun _ _ => plain_term) ?_
  refine .step (pinpoints_unary ts) sound_unary (fun ys h => ?_) fun xs a rest ha _ =>
    pinpoints_moreFactors (.unary ha) rest
  exact h.within fun h => ⟨_, _, .unary h, List.prefix_append ..⟩
termination_by 6 * ts.length + 4

/-- What was collected before is part of what is viable. -/
theorem pinpoints_moreFactors {before : List Lexeme} {a : Expr} (ha : IsExpr .product before a)
    (ts : List Lexeme) :
    Pinpoints (plain (moreFactors a)) (fun ys => Viable (IsExpr .product) (before ++ ys)) ts := by
  rcases productOp?_cases (peek ts) with hnone | ⟨m, op, hm, hop, hproduct⟩
  · exact .congr (fun _ h => plain_moreFactors_none (by rwa [peek_of_head h])) (.pure a)
  refine .congr (fun _ h => plain_moreFactors_some hop ((peek_of_head h).trans hm)) ?_
  refine .mark (.of_start ha (by simp)) fun p tail _ => ?_
  refine .step (pinpoints_unary tail) sound_unary (fun ys h => ?_) fun xs b rest hb _ => ?_
  · exact h.within fun h => ⟨_, _, hproduct (p := p) ha h, by simp⟩
  · refine (pinpoints_moreFactors (hproduct (p := p) ha hb) rest).mono fun ys h => ?_
    rwa [List.append_assoc] at h
termination_by 6 * ts.length

theorem pinpoints_unary (ts : List Lexeme) :
    Pinpoints (plain unary) (Viable (IsExpr .unary)) ts := by
  by_cases hminus : peek ts = .mark .minus
  · refine .congr (fun _ h => plain_unary_minus ((peek_of_head h).trans hminus)
      (here_of_head h)) ?_
    refine .mark (.of_start (isExpr_some .unary) List.nil_prefix) fun p tail _ => ?_
    refine ((pinpoints_unary tail).mono fun ys h => ?_).bind_pure _
    exact h.within fun h => ⟨_, _, .neg (p := p) h, by simp⟩
  · refine .congr (fun _ h => plain_unary_power ((peek_of_head h).trans_ne hminus)) ?_
    refine (pinpoints_power ts).mono fun ys h => ?_
    exact h.within fun h => ⟨_, _, .power h, List.prefix_append ..⟩
termination_by 6 * ts.length + 3

theorem pinpoints_power (ts : List Lexeme) :
    Pinpoints (plain power) (Viable (IsExpr .power)) ts := by
  refine .congr (fun _ _ => plain_power) ?_
  refine .step (pinpoints_atom ts) sound_atom (fun ys h => ?_) fun xs a rest ha _ => ?_
  · exact h.within fun h => ⟨_, _, .atom h, List.prefix_append ..⟩
  by_cases hcaret : peek rest = .mark .caret
  · refine .congr (fun _ h => if_pos ((peek_of_head h).trans hcaret)) ?_
    refine .mark (.of_start (.atom ha) (by simp)) fun p tail _ => ?_
    refine ((pinpoints_unary tail).mono fun ys h => ?_).bind_pure _
    exact h.within fun h => ⟨_, _, .pow (p := p) ha h, by simp⟩
  · exact .congr (fun _ h => if_neg ((peek_of_head h).trans_ne hcaret)) (.pure a)
termination_by 6 * ts.length + 2

theorem pinpoints_atom (ts : List Lexeme) :
    Pinpoints (plain atom) (Viable (IsExpr .atom)) ts := by
  have hempty : Viable (IsExpr .atom) [] := .of_start (isExpr_some .atom) List.nil_prefix
  by_cases hcall : ∃ f, peek ts = .keyword (.call f)
  · obtain ⟨f, hf⟩ := hcall
    refine .congr (fun _ h => plain_atom_call ((peek_of_head h).trans hf) (here_of_head h)) ?_
    refine .exactly hempty fun p rest _ => ?_
    refine .mark (.of_start (.call (f := f) (p := p) (q := p) (r := p) (isExpr_some .sum))
      (by simp)) fun q tail _ => ?_
    refine .step (pinpoints_expression tail) sound_expression (fun ys h => ?_)
      fun xs e last he _ => ?_
    · exact h.within fun h => ⟨_, _, .call (f := f) (p := p) (q := q) (r := q) h, by simp⟩
    · exact .mark (.of_start (.call (f := f) (p := p) (q := q) (r := q) he) (by simp))
        fun _ _ _ => .pure _
  by_cases hgroup : peek ts = .mark .openParen
  · refine .congr (fun _ h => plain_atom_group ((peek_of_head h).trans hgroup)) ?_
    refine .mark hempty fun p tail _ => ?_
    refine .step (pinpoints_expression tail) sound_expression (fun ys h => ?_)
      fun xs e last he _ => ?_
    · exact h.within fun h => ⟨_, _, .group (p := p) (q := p) h, by simp⟩
    · exact .mark (.of_start (.group (p := p) (q := p) he) (by simp)) fun _ _ _ => .pure _
  by_cases hoperand : ∃ x, peek ts = .identifier x
  · obtain ⟨x, hx⟩ := hoperand
    refine .congr (fun _ h => plain_atom_operand ((peek_of_head h).trans hx)) ?_
    refine ((pinpoints_operand ts).mono fun ys h => ?_).bind_pure _
    exact h.within fun h => ⟨_, _, .operand h, List.prefix_append ..⟩
  · have hread (other : List Lexeme) (h : other.head? = ts.head?) :
        plain atom other = plain (next .expression (literal? (here ts))) other := by
      rw [← peek_of_head h] at hcall hgroup hoperand
      exact plain_atom_literal (fun f hf => hcall ⟨f, hf⟩) hgroup (fun x hx => hoperand ⟨x, hx⟩)
        (here_of_head h)
    exact .congr hread (.next hempty)
termination_by 6 * ts.length + 1

end

theorem pinpoints_expressionList (ts : List Lexeme) :
    Pinpoints (plain expressionList) (Viable (IsList (IsExpr .sum))) ts :=
  pinpoints_commaList pinpoints_expression sound_expression ts

end OpenQasm.Parse
