import OpenQasm.Proofs.Expressions
import OpenQasm.Proofs.Printing

/-!
# What the text of an expression is read as

The text of an expression has parentheses around every binary operation, but none around a negation.
A sign in front of a power is that of the power, so the text of a negation that is raised to a power
is read as the negation of a power: `(-a ^ b)` is printed for `(-a) ^ b` and read as `-(a ^ b)`.
Everything else is read as it was.

* `Expr.reread`: what the text is read as, and `shape_reread_iff`: where that is what was printed.
* `Expr.derives_of_tokens`: the tokens of an expression derive what they are read as.
* `Expr.tokens_append_inj`: different expressions have different tokens.
* `Expr.writable_of_isRead`: what is read from a source text can be written.
* **`Expr.text_reread`**: what the text of every expression is read as.
-/

namespace OpenQasm

open Grammar

/-! ## Tokens of operators and operands -/

theorem BinaryOp.mark_injective {op op' : BinaryOp} (h : op.mark = op'.mark) : op = op' := by
  cases op <;> cases op' <;> first | rfl | cases h

theorem BinaryOp.head?_mark (op : BinaryOp) {r : List Token} :
    (.mark op.mark :: r).head? ≠ some (Token.mark .openBracket) := by
  cases op <;> exact fun h => nomatch h

/-- Different operands have different tokens, whatever follows but an index. -/
theorem Operand.tokens_append_inj {v v' : Operand} {r r' : List Token}
    (h : v.tokens ++ r = v'.tokens ++ r') (hr : r.head? ≠ some (.mark .openBracket))
    (hr' : r'.head? ≠ some (.mark .openBracket)) : v.shape = v'.shape ∧ r = r' := by
  obtain ⟨name, index, pos⟩ := v
  obtain ⟨name', index', pos'⟩ := v'
  obtain ⟨hname, hrest⟩ := List.cons.inj h
  cases hname
  cases index with
  | none =>
    cases index' with
    | none => exact ⟨rfl, hrest⟩
    | some i' =>
      obtain rfl : r = _ := hrest
      exact absurd rfl hr
  | some i =>
    cases index' with
    | none =>
      obtain rfl : _ = r' := hrest
      exact absurd rfl hr'
    | some i' =>
      cases hrest
      exact ⟨rfl, rfl⟩

namespace Expr

/-! ## Signs in front of powers -/

/-- What the text of an expression is read as. What is done to the expression, `wrap`, is done behind
the signs in front of it. -/
def readWith : (Expr → Expr) → Expr → Expr
  | wrap, neg target pos => neg (readWith wrap target) pos
  | wrap, binary .pow base exponent =>
    wrap (readWith (fun inner => binary .pow inner (readWith id exponent)) base)
  | wrap, binary op left right => wrap (binary op (readWith id left) (readWith id right))
  | wrap, call function target pos => wrap (call function (readWith id target) pos)
  | wrap, leaf => wrap leaf

/-- What the text of an expression is read as. -/
def reread (e : Expr) : Expr := readWith id e

/-- Somewhere a negation is raised to a power. -/
def RaisesNegation : Expr → Prop
  | neg target _ => target.RaisesNegation
  | binary op left right =>
    (op = .pow ∧ ∃ target pos, left = neg target pos) ∨ left.RaisesNegation ∨ right.RaisesNegation
  | call _ target _ => target.RaisesNegation
  | _ => False

/-- No sign stands in front of the expression. -/
def Unsigned : Expr → Prop
  | neg _ _ => False
  | _ => True

theorem readWith_of_unsigned {e : Expr} (h : e.Unsigned) (wrap : Expr → Expr) :
    readWith wrap e = wrap e.reread := by
  cases e with
  | neg target pos => exact h.elim
  | binary op left right => cases op <;> rfl
  | _ => rfl

/-- What is done to an expression is done to its shape. -/
theorem shape_readWith {wrap wrap' : Expr → Expr}
    (h : ∀ a b, a.shape = b.shape → (wrap a).shape = (wrap' b).shape) (e : Expr) :
    (readWith wrap e).shape = (readWith wrap' e).shape := by
  induction e generalizing wrap wrap' with
  | neg target pos ih => exact congrArg (neg · default) (ih h)
  | binary op left right ihl ihr =>
    cases op with
    | pow => exact h _ _ rfl
    | _ => exact h _ _ rfl
  | _ => exact h _ _ rfl

theorem unsigned_or_neg (e : Expr) : e.Unsigned ∨ ∃ target pos, e = neg target pos := by
  cases e with
  | neg target pos => exact Or.inr ⟨target, pos, rfl⟩
  | _ => exact Or.inl trivial

/-- A power of an expression with no sign in front is read as one. -/
theorem reread_pow {base : Expr} (h : base.Unsigned) (exponent : Expr) :
    (binary .pow base exponent).reread = binary .pow base.reread exponent.reread :=
  readWith_of_unsigned h _

/-- **An expression is read as it was** exactly where no negation is raised to a power. -/
theorem shape_reread_iff (e : Expr) : e.reread.shape = e.shape ↔ ¬e.RaisesNegation := by
  induction e with
  | neg target pos ih =>
    show neg target.reread.shape default = neg target.shape default ↔ ¬target.RaisesNegation
    rw [neg.injEq, and_iff_left rfl]
    exact ih
  | call function target pos ih =>
    show call function target.reread.shape default = call function target.shape default ↔
      ¬target.RaisesNegation
    rw [call.injEq, and_iff_right rfl, and_iff_left rfl]
    exact ih
  | binary op left right ihl ihr =>
    have hparts (hop : op = .pow → left.Unsigned) :
        binary op left.reread.shape right.reread.shape = binary op left.shape right.shape ↔
          ¬(binary op left right).RaisesNegation := by
      have hbase : ¬(op = .pow ∧ ∃ target pos, left = neg target pos) := by
        rintro ⟨rfl, target, pos, rfl⟩
        exact hop rfl
      rw [binary.injEq, and_iff_right rfl, ihl, ihr, RaisesNegation, not_or, not_or,
        and_iff_right hbase]
    by_cases hop : op = .pow
    · subst hop
      rcases left.unsigned_or_neg with hleft | ⟨target, pos, rfl⟩
      · rw [reread_pow hleft]
        exact hparts fun _ => hleft
      · refine iff_of_false nofun (not_not.mpr (Or.inl ⟨rfl, target, pos, rfl⟩))
    · have hsame : (binary op left right).reread = binary op left.reread right.reread := by
        cases op with
        | pow => exact absurd rfl hop
        | _ => rfl
      rw [hsame]
      exact hparts fun h => absurd h hop
  | _ => exact iff_of_true rfl id

/-! ## Deriving the text -/

/-- What the tokens of an expression derive, alone and with a power behind them. -/
structure Derives (e : Expr) (ts : List Lexeme) : Prop where
  alone : ∃ e', IsExpr .unary ts e' ∧ e'.shape = e.reread.shape
  raised : ∀ p ys exponent, IsExpr .unary ys exponent →
    ∃ e', IsExpr .unary (ts ++ ⟨.mark .caret, p⟩ :: ys) e' ∧
      e'.shape = (readWith (fun base => binary .pow base exponent) e).shape

/-- What derives an atom derives its powers. -/
theorem Derives.of_atom {e : Expr} {ts : List Lexeme} (hunsigned : e.Unsigned)
    (h : ∃ e', IsExpr .atom ts e' ∧ e'.shape = e.reread.shape) : e.Derives ts where
  alone := by
    obtain ⟨e', hatom, hshape⟩ := h
    exact ⟨e', .power (.atom hatom), hshape⟩
  raised p ys exponent hexponent := by
    obtain ⟨e', hatom, hshape⟩ := h
    refine ⟨_, .power (.pow hatom hexponent), ?_⟩
    rw [readWith_of_unsigned hunsigned]
    exact congrArg (binary .pow · exponent.shape) hshape

/-- A lexeme with a given token in front of lexemes with others. -/
theorem exists_lexeme_cons {ts : List Lexeme} {token : Token} {tokens : List Token}
    (h : ts.map (·.token) = token :: tokens) :
    ∃ p rest, ts = ⟨token, p⟩ :: rest ∧ rest.map (·.token) = tokens := by
  obtain ⟨⟨_, p⟩, rest, rfl, rfl, hrest⟩ := List.map_eq_cons_iff.mp h
  exact ⟨p, rest, rfl, hrest⟩

/-- The operands of an operator in parentheses. -/
theorem derives_operation {op : BinaryOp} {left right : Expr} {xs ys : List Lexeme} (p : SourcePos)
    (hleft : left.Derives xs) (hright : right.Derives ys) :
    ∃ e', IsExpr .sum (xs ++ ⟨.mark op.mark, p⟩ :: ys) e' ∧
      e'.shape = (binary op left right).reread.shape := by
  obtain ⟨b, hb, hbshape⟩ := hright.alone
  cases op with
  | pow =>
    obtain ⟨e', he', hshape⟩ := hleft.raised p ys b hb
    refine ⟨e', .product (.unary he'), hshape.trans ?_⟩
    refine shape_readWith (fun x y hxy => ?_) left
    show binary .pow x.shape b.shape = binary .pow y.shape right.reread.shape
    rw [hxy, hbshape]
  | add =>
    obtain ⟨a, ha, hashape⟩ := hleft.alone
    exact ⟨_, .add (.product (.unary ha)) (.unary hb), congrArg₂ (binary .add) hashape hbshape⟩
  | sub =>
    obtain ⟨a, ha, hashape⟩ := hleft.alone
    exact ⟨_, .sub (.product (.unary ha)) (.unary hb), congrArg₂ (binary .sub) hashape hbshape⟩
  | mul =>
    obtain ⟨a, ha, hashape⟩ := hleft.alone
    exact ⟨_, .product (.mul (.unary ha) hb), congrArg₂ (binary .mul) hashape hbshape⟩
  | div =>
    obtain ⟨a, ha, hashape⟩ := hleft.alone
    exact ⟨_, .product (.div (.unary ha) hb), congrArg₂ (binary .div) hashape hbshape⟩

/-- **The tokens of an expression** derive what its text is read as. -/
theorem derives_of_tokens (e : Expr) {ts : List Lexeme} (h : ts.map (·.token) = e.tokens) :
    e.Derives ts := by
  induction e generalizing ts with
  | real value pos =>
    obtain ⟨p, rest, rfl, hrest⟩ := exists_lexeme_cons h
    obtain rfl := List.map_eq_nil_iff.mp hrest
    exact .of_atom trivial ⟨_, .real, rfl⟩
  | integer value pos =>
    obtain ⟨p, rest, rfl, hrest⟩ := exists_lexeme_cons h
    obtain rfl := List.map_eq_nil_iff.mp hrest
    exact .of_atom trivial ⟨_, .integer, rfl⟩
  | pi pos =>
    obtain ⟨p, rest, rfl, hrest⟩ := exists_lexeme_cons h
    obtain rfl := List.map_eq_nil_iff.mp hrest
    exact .of_atom trivial ⟨_, .pi, rfl⟩
  | operand v =>
    obtain ⟨name, index, pos⟩ := v
    obtain ⟨p, rest, rfl, hrest⟩ := exists_lexeme_cons h
    cases index with
    | none =>
      obtain rfl := List.map_eq_nil_iff.mp hrest
      exact .of_atom trivial ⟨_, .operand .whole, rfl⟩
    | some i =>
      obtain ⟨q, second, rfl, hsecond⟩ := exists_lexeme_cons hrest
      obtain ⟨r, third, rfl, hthird⟩ := exists_lexeme_cons hsecond
      obtain ⟨s, last, rfl, hlast⟩ := exists_lexeme_cons hthird
      obtain rfl := List.map_eq_nil_iff.mp hlast
      exact .of_atom trivial ⟨_, .operand .element, rfl⟩
  | neg target pos ih =>
    obtain ⟨p, rest, rfl, hrest⟩ := exists_lexeme_cons h
    obtain ⟨⟨e', he', hshape⟩, hraised⟩ := ih hrest
    refine ⟨⟨_, .neg he', congrArg (neg · default) hshape⟩, fun q ys exponent hexponent => ?_⟩
    -- the power is derived from what is behind the sign
    obtain ⟨e', he', hshape⟩ := hraised q ys exponent hexponent
    exact ⟨_, .neg he', congrArg (neg · default) hshape⟩
  | binary op left right ihl ihr =>
    obtain ⟨p, rest, rfl, hrest⟩ := exists_lexeme_cons h
    obtain ⟨xs, between, rfl, hxs, hbetween⟩ := List.map_eq_append_iff.mp hrest
    obtain ⟨q, others, rfl, hothers⟩ := exists_lexeme_cons hbetween
    obtain ⟨ys, closing, rfl, hys, hclosing⟩ := List.map_eq_append_iff.mp hothers
    obtain ⟨r, last, rfl, hlast⟩ := exists_lexeme_cons hclosing
    obtain rfl := List.map_eq_nil_iff.mp hlast
    obtain ⟨e', he', hshape⟩ := derives_operation q (ihl hxs) (ihr hys)
    have hgroup := IsExpr.group (p := p) (q := r) he'
    rw [List.cons_append, List.append_assoc] at hgroup
    exact .of_atom trivial ⟨e', hgroup, hshape⟩
  | call function target pos ih =>
    obtain ⟨p, rest, rfl, hrest⟩ := exists_lexeme_cons h
    obtain ⟨q, inner, rfl, hinner⟩ := exists_lexeme_cons hrest
    obtain ⟨xs, closing, rfl, hxs, hclosing⟩ := List.map_eq_append_iff.mp hinner
    obtain ⟨r, last, rfl, hlast⟩ := exists_lexeme_cons hclosing
    obtain rfl := List.map_eq_nil_iff.mp hlast
    obtain ⟨⟨e', he', hshape⟩, -⟩ := ih hxs
    exact .of_atom trivial ⟨_, .call (.product (.unary he')),
      congrArg (call function · default) hshape⟩

/-! ## Different expressions -/

/-- **Different expressions have different tokens**, whatever follows but an index. -/
theorem tokens_append_inj {e e' : Expr} {r r' : List Token} (h : e.tokens ++ r = e'.tokens ++ r')
    (hr : r.head? ≠ some (.mark .openBracket)) (hr' : r'.head? ≠ some (.mark .openBracket)) :
    e.shape = e'.shape ∧ r = r' := by
  induction e generalizing e' r r' with
  | real value pos =>
    cases e' with
    | real value' pos' =>
      obtain ⟨hvalue, hrest⟩ := List.cons.inj h
      cases hvalue
      exact ⟨rfl, hrest⟩
    | _ => cases (List.cons.inj h).1
  | integer value pos =>
    cases e' with
    | integer value' pos' =>
      obtain ⟨hvalue, hrest⟩ := List.cons.inj h
      cases hvalue
      exact ⟨rfl, hrest⟩
    | _ => cases (List.cons.inj h).1
  | pi pos =>
    cases e' with
    | pi pos' => exact ⟨rfl, (List.cons.inj h).2⟩
    | _ => cases (List.cons.inj h).1
  | operand v =>
    cases e' with
    | operand v' =>
      obtain ⟨hshape, hrest⟩ := Operand.tokens_append_inj h hr hr'
      exact ⟨congrArg operand hshape, hrest⟩
    | _ => cases (List.cons.inj h).1
  | neg target pos ih =>
    cases e' with
    | neg target' pos' =>
      obtain ⟨hshape, hrest⟩ := ih (List.cons.inj h).2 hr hr'
      exact ⟨congrArg (neg · default) hshape, hrest⟩
    | _ => cases (List.cons.inj h).1
  | binary op left right ihl ihr =>
    cases e' with
    | binary op' left' right' =>
      simp only [tokens, List.cons_append, List.append_assoc, List.nil_append, List.cons.injEq,
        true_and] at h
      -- an operator stands behind the left operand, and a parenthesis behind the right one
      obtain ⟨hleft, hbetween⟩ := ihl h op.head?_mark op'.head?_mark
      obtain ⟨hop, hothers⟩ := List.cons.inj hbetween
      obtain rfl := BinaryOp.mark_injective (Token.mark.inj hop)
      obtain ⟨hright, hclosing⟩ := ihr hothers nofun nofun
      exact ⟨congrArg₂ (binary op) hleft hright, (List.cons.inj hclosing).2⟩
    | _ => cases (List.cons.inj h).1
  | call function target pos ih =>
    cases e' with
    | call function' target' pos' =>
      obtain ⟨hfunction, hrest⟩ := List.cons.inj h
      cases hfunction
      rw [List.append_eq, List.append_eq, List.cons_append, List.cons_append, List.append_assoc,
        List.append_assoc] at hrest
      obtain ⟨htarget, hclosing⟩ := ih (List.cons.inj hrest).2 nofun nofun
      exact ⟨congrArg (call function · default) htarget, (List.cons.inj hclosing).2⟩
    | _ => cases (List.cons.inj h).1

/-- The lexemes of the text of an expression. -/
theorem scan_text {e : Expr} (h : e.Writable) (file : String) :
    ∃ lexemes p, lexemes.map (·.token) = e.tokens ∧
      scan file e.text = .ok (lexemes ++ [⟨.endOfFile, p⟩]) := by
  obtain ⟨lexemes, htokens, hscan⟩ := scans_text h (.start file) [] stops_nil
  rw [List.append_nil] at hscan
  refine ⟨lexemes, (SourcePos.start file).afterAll e.text.toList, htokens, ?_⟩
  rw [scan, hscan, scanFrom_nil]
  rfl

/-- Different expressions have different texts. -/
theorem shape_eq_of_text_eq {e e' : Expr} (h : e.Writable) (h' : e'.Writable)
    (htext : e.text = e'.text) : e.shape = e'.shape := by
  obtain ⟨lexemes, p, htokens, hscan⟩ := scan_text h ""
  obtain ⟨lexemes', p', htokens', hscan'⟩ := scan_text h' ""
  rw [htext, hscan'] at hscan
  obtain ⟨rfl, -⟩ := List.append_inj' (Except.ok.inj hscan) rfl
  exact (tokens_append_inj (congrArg (· ++ []) (htokens.symm.trans htokens')) nofun nofun).1

/-! ## What the text is read as -/

/-- The text of `e` is scanned, and read as one expression to its end: this one, up to positions. -/
def TextReadAs (e read : Expr) : Prop :=
  ∀ file, ∃ lexemes e' p, scan file e.text = .ok lexemes ∧
    Parse.Yields (Parse.expression lexemes) e' [⟨.endOfFile, p⟩] ∧ e'.shape = read.shape

theorem textReadAs_reread {e : Expr} (h : e.Writable) : e.TextReadAs e.reread := by
  intro file
  obtain ⟨lexemes, p, htokens, hscan⟩ := scan_text h file
  obtain ⟨e', he', hshape⟩ := (derives_of_tokens e htokens).alone
  have hend : Parse.peek [⟨.endOfFile, p⟩] ∉ Parse.extending .sum := by
    show Token.endOfFile ∉ Parse.extending .sum
    decide
  exact ⟨_, e', p, hscan,
    Parse.recognizes_expression.complete (.product (.unary he')) hend, hshape⟩

/-- A text is read as one expression. -/
theorem TextReadAs.shape_eq {e read read' : Expr} (h : e.TextReadAs read)
    (h' : e.TextReadAs read') : read.shape = read'.shape := by
  obtain ⟨lexemes, e', p, hscan, ⟨_, hyields⟩, hshape⟩ := h ""
  obtain ⟨lexemes', e'', p', hscan', ⟨_, hyields'⟩, hshape'⟩ := h' ""
  obtain rfl := Except.ok.inj (hscan.symm.trans hscan')
  cases hyields.symm.trans hyields'
  exact hshape.symm.trans hshape'

/-! ## Expressions that are read -/

/-- An expression that is read at some place of a source text. -/
def IsRead (e : Expr) : Prop :=
  ∃ file source before ts rest, scan file source = .ok (before ++ ts) ∧
    Parse.Yields (Parse.expression ts) e rest

/-- An expression whose leaves are integers, `pi` and operands. -/
def WithoutReals : Expr → Prop
  | real _ _ => False
  | neg target _ => target.WithoutReals
  | binary _ left right => left.WithoutReals ∧ right.WithoutReals
  | call _ target _ => target.WithoutReals
  | _ => True

/-- What is derived from tokens that have spellings can be written. -/
theorem writable_of_isExpr {level : Level} {ts : List Lexeme} {e : Expr} (h : IsExpr level ts e)
    (hspelled : ∀ l ∈ ts, l.token ≠ .endOfFile → ∃ text, Spells text l.token)
    (hreals : e.WithoutReals) : e.Writable := by
  induction h with
  | product _ ih | unary _ ih | power _ ih | atom _ ih => exact ih hspelled hreals
  | add _ _ iha ihb | sub _ _ iha ihb | mul _ _ iha ihb | div _ _ iha ihb | pow _ _ iha ihb =>
    exact ⟨iha (fun l hl => hspelled l (List.mem_append_left _ hl)) hreals.1,
      ihb (fun l hl => hspelled l (List.mem_append_right _ (List.mem_cons_of_mem _ hl))) hreals.2⟩
  | neg _ ih => exact ih (fun l hl => hspelled l (List.mem_cons_of_mem _ hl)) hreals
  | real => exact hreals.elim
  | integer =>
    obtain ⟨text, hvalue⟩ := hspelled _ (List.mem_singleton_self _) nofun
    exact hvalue.lt_integerLimit
  | pi => exact trivial
  | operand hv =>
    cases hv with
    | whole =>
      obtain ⟨text, hname⟩ := hspelled _ (List.mem_singleton_self _) nofun
      exact ⟨hname.of_identifier, nofun⟩
    | element =>
      obtain ⟨text, hname⟩ := hspelled _ List.mem_cons_self nofun
      obtain ⟨text', hvalue⟩ := hspelled _
        (List.mem_cons_of_mem _ (List.mem_cons_of_mem _ List.mem_cons_self)) nofun
      refine ⟨hname.of_identifier, fun i hi => ?_⟩
      obtain rfl := Option.some.inj hi
      exact hvalue.lt_integerLimit
  | call _ ih =>
    refine ih (fun l hl => hspelled l ?_) hreals
    simp [hl]
  | group _ ih =>
    refine ih (fun l hl => hspelled l ?_) hreals
    simp [hl]

theorem writable_of_isRead {e : Expr} (h : e.IsRead) (hreals : e.WithoutReals) : e.Writable := by
  obtain ⟨file, source, before, ts, rest, hscan, hyields⟩ := h
  obtain ⟨xs, rfl, hexpr⟩ := Parse.sound_expression hyields
  exact writable_of_isExpr hexpr (fun l hl => spells_of_mem_scan hscan
    (List.mem_append_right _ (List.mem_append_left _ hl))) hreals

/-- **What the text of an expression is read as.** An expression that is read, with integers, `pi`
and operands for its leaves, has a text that is read to its end. What is read is the expression
itself, up to positions, if and only if no negation in it is raised to a power; otherwise the power
stands behind the sign. Different expressions have different texts all the same. -/
theorem text_reread (e : Expr) (hread : e.IsRead) (hreals : e.WithoutReals) :
    e.TextReadAs e.reread ∧ (e.TextReadAs e ↔ ¬e.RaisesNegation) ∧
      ∀ e' : Expr, e'.IsRead → e'.WithoutReals → e.text = e'.text → e.shape = e'.shape := by
  have hwritable := writable_of_isRead hread hreals
  have htext := textReadAs_reread hwritable
  refine ⟨htext, ?_, fun e' hread' hreals' => ?_⟩
  · rw [← shape_reread_iff]
    exact ⟨fun h => htext.shape_eq h, fun h file => by rw [← h]; exact htext file⟩
  · exact shape_eq_of_text_eq hwritable (writable_of_isRead hread' hreals')

/-! ## A negation that is raised to a power -/

/-- The square of minus one, as `(-1)^2` is read. -/
def raised (file : String) : Expr :=
  binary .pow (neg (integer 1 ⟨file, 1, 3⟩) ⟨file, 1, 2⟩) (integer 2 ⟨file, 1, 6⟩)

/-- The lexemes of `(-1)^2`. -/
def raisedLexemes (file : String) : List Lexeme :=
  [⟨.mark .openParen, ⟨file, 1, 1⟩⟩, ⟨.mark .minus, ⟨file, 1, 2⟩⟩, ⟨.integer 1, ⟨file, 1, 3⟩⟩,
    ⟨.mark .closeParen, ⟨file, 1, 4⟩⟩, ⟨.mark .caret, ⟨file, 1, 5⟩⟩, ⟨.integer 2, ⟨file, 1, 6⟩⟩]

theorem scan_raised (file : String) :
    scan file "(-1)^2" = .ok (raisedLexemes file ++ [⟨.endOfFile, ⟨file, 1, 7⟩⟩]) :=
  scanFrom_cons rfl (scanFrom_cons rfl (scanFrom_cons rfl
    (scanFrom_cons rfl (scanFrom_cons rfl (scanFrom_cons rfl scanFrom_nil)))))

theorem isRead_raised (file : String) : (raised file).IsRead := by
  have hderived : IsExpr .sum (raisedLexemes file) (raised file) :=
    .product (.unary (.power (.pow
      (.group (.product (.unary (.neg (.power (.atom .integer))))))
      (.power (.atom .integer)))))
  refine ⟨file, "(-1)^2", [], _, _, scan_raised file,
    Parse.recognizes_expression.complete hderived ?_⟩
  show Token.endOfFile ∉ Parse.extending .sum
  decide

/-- The square of minus one prints `(-1 ^ 2)`, which is not read as it was. -/
theorem text_raised_not_reread :
    (raised "t.qasm").IsRead ∧ (raised "t.qasm").WithoutReals ∧
      (raised "t.qasm").text = "(-1 ^ 2)" ∧ ¬(raised "t.qasm").TextReadAs (raised "t.qasm") := by
  have hreals : (raised "t.qasm").WithoutReals := ⟨trivial, trivial⟩
  refine ⟨isRead_raised _, hreals, rfl, fun h => ?_⟩
  have hreread := textReadAs_reread (writable_of_isRead (isRead_raised "t.qasm") hreals)
  exact absurd (h.shape_eq hreread) nofun

/-- It is read as the negation of a square. -/
theorem text_reread_raised :
    (raised "t.qasm").TextReadAs
        (neg (binary .pow (integer 1 default) (integer 2 default)) default) ∧
      ¬(raised "t.qasm").TextReadAs (raised "t.qasm") ∧
      (raised "t.qasm").shape = (raised "s.qasm").shape := by
  have hreals (file : String) : (raised file).WithoutReals := ⟨trivial, trivial⟩
  obtain ⟨hread, hsame, hother⟩ :=
    text_reread (raised "t.qasm") (isRead_raised "t.qasm") (hreals "t.qasm")
  refine ⟨fun file => hread file, fun h => hsame.mp h (Or.inl ⟨rfl, _, _, rfl⟩), ?_⟩
  exact hother (raised "s.qasm") (isRead_raised "s.qasm") (hreals "s.qasm") rfl

end Expr

end OpenQasm
