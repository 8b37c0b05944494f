import OpenQasm.Proofs.Munch
import OpenQasm.Syntax.Expr

/-!
# What an expression prints

The text of an expression is scanned to the tokens that it is made of (`Expr.tokens`), whatever
follows, as long as nothing there goes on with the last of them. Reals are left out: what is printed
of one is the shortest decimal of the double, which need not be the decimal that was read.

* `Scans.append`: texts that are scanned apart are scanned together, where the second does not go on
  with the last lexeme of the first.
* `spells_toString`: an integer prints a numeral of its value.
* **`Expr.scans_text`**: the tokens of a text, by induction on the expression.
-/

namespace OpenQasm

open Numeral

/-! ## Expressions without positions -/

/-- An operand without its position. -/
def Operand.shape (v : Operand) : Operand := { v with pos := default }

/-- An operand that can be written: a word that is no keyword, and an index that fits a literal. -/
structure Operand.Writable (v : Operand) : Prop where
  name : Spells v.name.toList (.identifier v.name)
  index : ∀ i, v.index = some i → i < Token.integerLimit

/-- The tokens of an operand. -/
def Operand.tokens (v : Operand) : List Token :=
  .identifier v.name :: match v.index with
    | some i => [.mark .openBracket, .integer i, .mark .closeBracket]
    | none => []

namespace Expr

/-- An expression without its positions. -/
def shape : Expr → Expr
  | real value _ => real value default
  | integer value _ => integer value default
  | pi _ => pi default
  | operand v => operand v.shape
  | neg target _ => neg target.shape default
  | binary op left right => binary op left.shape right.shape
  | call function target _ => call function target.shape default

/-- An expression whose leaves are integers, `pi` and operands that can be written. -/
def Writable : Expr → Prop
  | real _ _ => False
  | integer value _ => value < Token.integerLimit
  | pi _ => True
  | operand v => v.Writable
  | neg target _ => target.Writable
  | binary _ left right => left.Writable ∧ right.Writable
  | call _ target _ => target.Writable

/-- The tokens of an expression with every binary operation in parentheses. -/
def tokens : Expr → List Token
  | real value _ => [.real value]
  | integer value _ => [.integer value]
  | pi _ => [.keyword .pi]
  | operand v => v.tokens
  | neg target _ => .mark .minus :: target.tokens
  | binary op left right =>
    .mark .openParen :: (left.tokens ++ .mark op.mark :: (right.tokens ++ [.mark .closeParen]))
  | call function target _ =>
    .keyword (.call function) :: .mark .openParen :: (target.tokens ++ [.mark .closeParen])

end Expr

/-! ## Texts that are scanned to given tokens -/

/-- A text that is scanned to these tokens in front of every text that may follow it. -/
def Scans (follows : List Char → Prop) (text : List Char) (tokens : List Token) : Prop :=
  ∀ pos more, follows more → ∃ lexemes : List Lexeme, lexemes.map (·.token) = tokens ∧
    scanFrom pos (text ++ more) =
      (scanFrom (pos.afterAll text) more).map (lexemes ++ ·)

namespace Scans

variable {follows after : List Char → Prop} {text next : List Char} {tokens others : List Token}

theorem weaken (h : Scans follows text tokens) (hfollows : ∀ more, after more → follows more) :
    Scans after text tokens := fun pos more hmore => h pos more (hfollows more hmore)

/-- Two texts, one after the other. -/
theorem append (h : Scans follows text tokens) (h' : Scans after next others)
    (hnext : ∀ more, after more → follows (next ++ more)) :
    Scans after (text ++ next) (tokens ++ others) := by
  intro pos more hmore
  obtain ⟨first, hfirst, hscan⟩ := h pos (next ++ more) (hnext more hmore)
  obtain ⟨second, hsecond, hscan'⟩ := h' (pos.afterAll text) more hmore
  refine ⟨first ++ second, by rw [List.map_append, hfirst, hsecond], ?_⟩
  rw [List.append_assoc, hscan, hscan', SourcePos.afterAll_append]
  cases scanFrom ((pos.afterAll text).afterAll next) more with
  | error e => rfl
  | ok rest => exact congrArg Except.ok (List.append_assoc ..).symm

/-- A text that is read as one token. -/
theorem of_ofText {first : Char} {tail : List Char} {token : Token}
    (h : ∀ more, follows more →
      Piece.ofText first (tail ++ more) = .ok (.of token tail.length)) :
    Scans follows (first :: tail) [token] := by
  intro pos more hmore
  refine ⟨[⟨token, pos⟩], rfl, ?_⟩
  rw [List.cons_append, scanFrom_token (h more hmore)]
  rfl

/-- A lexeme, in front of what does not go on with it. -/
theorem of_spells {token : Token} (h : Spells text token) :
    Scans (Stops Piece.goesOn) text [token] := by
  obtain ⟨first, tail, rfl⟩ := List.exists_cons_of_ne_nil h.ne_nil
  exact of_ofText fun more hmore => Piece.ofText_append h hmore

/-- A parenthesis or a bracket, in front of anything. -/
theorem of_single {c : Char} {m : Mark} (h : Mark.single? c = some m) :
    Scans (fun _ => True) [c] [.mark m] :=
  of_ofText fun _ _ => Piece.ofText_single h

/-- A minus, in front of what does not make it an arrow. -/
theorem minus : Scans (fun more => more.head? ≠ some '>') ['-'] [.mark .minus] :=
  of_ofText fun _ hmore => if_neg hmore

/-- A space is no token. -/
theorem space : Scans (fun _ => True) [' '] [] := by
  intro pos more _
  refine ⟨[], rfl, ?_⟩
  have hblank : Piece.ofText ' ' ([] ++ more) = .ok ⟨none, 0⟩ := rfl
  rw [List.cons_append, scanFrom_gap hblank]
  cases scanFrom (pos.afterAll [' ']) more <;> rfl

end Scans

/-! ## Leaves -/

theorem natOfDigits_toDigits (n : Nat) : natOfDigits (Nat.toDigits 10 n) = n := by
  refine Eq.trans ?_ (Nat.ofDigitChars_ten_toDigits (n := n))
  rw [Nat.ofDigitChars_eq_foldl]
  rfl

/-- An integer prints a numeral of its value. -/
theorem spells_toString {n : Nat} (h : n < Token.integerLimit) :
    Spells (toString n).toList (.integer n) := by
  rw [Nat.toString_eq_repr, Nat.toList_repr]
  have hparts : Parts.Writes ⟨Nat.toDigits 10 n, none, none⟩ (Nat.toDigits 10 n) :=
    ⟨fun _ hc => Nat.isDigit_of_mem_toDigits (by decide) (by decide) hc, nofun,
      Or.inl Nat.toDigits_ne_nil, [], .absent, (List.append_nil _).symm⟩
  have htoken : Token.ofNumeral ⟨Nat.toDigits 10 n, none, none⟩ = .ok (.integer n) := by
    show (if natOfDigits (Nat.toDigits 10 n) < Token.integerLimit then
      Except.ok (Token.integer (natOfDigits (Nat.toDigits 10 n))) else _) = _
    rw [natOfDigits_toDigits, if_pos h]
  exact .numeral hparts htoken

theorem spells_pi : Spells "pi".toList (.keyword .pi) :=
  .word rfl (List.all_eq_true.mp rfl)

theorem spells_function (f : Function) : Spells f.name.toList (.keyword (.call f)) := by
  cases f <;> exact .word rfl (List.all_eq_true.mp rfl)

/-- What no lexeme goes on with: a space, a parenthesis or a bracket. -/
theorem stops_of_delimiter {c : Char} (h : c ∈ [' ', '(', ')', '[', ']']) (rest : List Char) :
    Stops Piece.goesOn (c :: rest) := by
  refine stops_cons.mpr ?_
  simp only [List.mem_cons, List.not_mem_nil, or_false] at h
  rcases h with rfl | rfl | rfl | rfl | rfl <;> decide

/-- The text of an operand. -/
theorem Operand.scans_text {v : Operand} (h : v.Writable) :
    Scans (Stops Piece.goesOn) v.text.toList v.tokens := by
  obtain ⟨name, index, pos⟩ := v
  have hname := Scans.of_spells h.name
  cases index with
  | none => exact hname
  | some i =>
    have hindex := Scans.of_spells (spells_toString (h.index i rfl))
    have htext : (Operand.mk name (some i) pos).text.toList =
        name.toList ++ (['['] ++ ((toString i).toList ++ [']'])) := by
      simp only [Operand.text, String.toList_append, List.append_assoc]
      rfl
    rw [htext]
    have hclose : Scans (fun _ => True) [']'] [.mark .closeBracket] := .of_single rfl
    have hopen : Scans (fun _ => True) ['['] [.mark .openBracket] := .of_single rfl
    have hbrackets := hname.append (hopen.append
      (hindex.append hclose fun more _ => stops_of_delimiter (by decide) more) fun _ _ => trivial)
      fun more _ => stops_of_delimiter (by decide) _
    exact hbrackets.weaken fun _ _ => trivial

/-- The mark of an operator. -/
theorem BinaryOp.scans_mark (op : BinaryOp) :
    Scans (Stops Piece.goesOn) op.mark.text.toList [.mark op.mark] := .of_spells (.mark op.mark)

/-- No lexeme makes a minus in front of it an arrow. -/
theorem Spells.head?_ne {text : List Char} {token : Token} (h : Spells text token)
    (more : List Char) : (text ++ more).head? ≠ some '>' := by
  cases h with
  | word hfirst htail =>
    intro hhead
    obtain rfl := Option.some.inj hhead
    exact absurd hfirst (by decide)
  | numeral hparts htoken =>
    obtain ⟨first, rest, htext, hfirst⟩ := hparts.starts more
    rw [htext]
    intro hhead
    obtain rfl := Option.some.inj hhead
    rcases hfirst with hdigit | ⟨hpoint, -⟩
    · exact absurd hdigit (by decide)
    · exact absurd hpoint (by decide)
  | quoted hbody => exact fun hhead => absurd (Option.some.inj hhead) (by decide)
  | mark m => cases m <;> exact fun hhead => absurd (Option.some.inj hhead) (by decide)

theorem Operand.head?_text {v : Operand} (h : v.Writable) (more : List Char) :
    (v.text.toList ++ more).head? ≠ some '>' := by
  obtain ⟨name, index, pos⟩ := v
  cases index with
  | none => exact h.name.head?_ne more
  | some i =>
    simp only [Operand.text, String.toList_append, List.append_assoc]
    exact h.name.head?_ne _

/-- No text of an expression makes a minus in front of it an arrow. -/
theorem Expr.head?_text {e : Expr} (h : e.Writable) (more : List Char) :
    (e.text.toList ++ more).head? ≠ some '>' := by
  cases e with
  | real value pos => exact h.elim
  | integer value pos => exact (spells_toString h).head?_ne more
  | pi pos => exact spells_pi.head?_ne more
  | operand v => exact Operand.head?_text h more
  | neg target pos =>
    simp only [text, String.toList_append, List.append_assoc]
    exact fun hhead => absurd (Option.some.inj hhead) (by decide)
  | binary op left right =>
    simp only [text, String.toList_append, List.append_assoc]
    exact fun hhead => absurd (Option.some.inj hhead) (by decide)
  | call function target pos =>
    simp only [text, String.toList_append, List.append_assoc]
    exact (spells_function function).head?_ne _

/-- **The text of an expression** is scanned to its tokens. -/
theorem Expr.scans_text {e : Expr} (h : e.Writable) :
    Scans (Stops Piece.goesOn) e.text.toList e.tokens := by
  induction e with
  | real value pos => exact h.elim
  | integer value pos => exact .of_spells (spells_toString h)
  | pi pos => exact .of_spells spells_pi
  | operand v => exact Operand.scans_text h
  | neg target pos ih =>
    have htarget : target.Writable := h
    have htext : (neg target pos).text.toList = ['-'] ++ target.text.toList := by
      simp only [text, String.toList_append]
      rfl
    rw [htext]
    exact Scans.minus.append (ih htarget) fun more _ => head?_text htarget more
  | binary op left right ihl ihr =>
    have htext : (binary op left right).text.toList = ['('] ++ (left.text.toList ++ ([' '] ++
        (op.mark.text.toList ++ ([' '] ++ (right.text.toList ++ [')']))))) := by
      simp only [text, String.toList_append, List.append_assoc]
      rfl
    rw [htext]
    have hopen : Scans (fun _ => True) ['('] [.mark .openParen] := .of_single rfl
    have hclose : Scans (fun _ => True) [')'] [.mark .closeParen] := .of_single rfl
    have hright := (ihr h.2).append hclose fun more _ => stops_of_delimiter (by decide) more
    have hmark := op.scans_mark.append (Scans.space.append hright fun _ _ => trivial)
      fun more _ => stops_of_delimiter (by decide) _
    have hleft := (ihl h.1).append (Scans.space.append hmark fun _ _ => trivial)
      fun more _ => stops_of_delimiter (by decide) _
    exact (hopen.append hleft fun _ _ => trivial).weaken fun _ _ => trivial
  | call function target pos ih =>
    have htext : (call function target pos).text.toList =
        function.name.toList ++ (['('] ++ (target.text.toList ++ [')'])) := by
      simp only [text, String.toList_append, List.append_assoc]
      rfl
    rw [htext]
    have hopen : Scans (fun _ => True) ['('] [.mark .openParen] := .of_single rfl
    have hclose : Scans (fun _ => True) [')'] [.mark .closeParen] := .of_single rfl
    have htarget := (ih h).append hclose fun more _ => stops_of_delimiter (by decide) more
    have hcall := (Scans.of_spells (spells_function function)).append
      (hopen.append htarget fun _ _ => trivial) fun more _ => stops_of_delimiter (by decide) _
    exact hcall.weaken fun _ _ => trivial

end OpenQasm
