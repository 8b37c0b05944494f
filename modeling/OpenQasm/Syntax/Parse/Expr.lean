import OpenQasm.Syntax.Parse.Basic

/-!
# Reading expressions

```
expression := term (("+" | "-") term)*
term       := unary (("*" | "/") unary)*
unary      := "-" unary | power
power      := atom ["^" unary]
atom       := real | integer | "pi" | operand | "(" expression ")" | function "(" expression ")"
```

Sums and products group to the left and powers to the right; `-a ^ b` is `-(a ^ b)`.

A reader calls one that stands further down on the same lexemes, and any other on fewer. Six times
the number of lexemes plus the reader's rank falls with every call.
-/

namespace OpenQasm.Parse

/-- The operators of a sum. -/
def sumOp? : Token → Option BinaryOp
  | .mark .plus => some .add
  | .mark .minus => some .sub
  | _ => none

/-- The operators of a product. -/
def productOp? : Token → Option BinaryOp
  | .mark .times => some .mul
  | .mark .divide => some .div
  | _ => none

/-- The atom that a single token writes. -/
def literal? (pos : SourcePos) : Token → Option Expr
  | .real value => some (.real value pos)
  | .integer value => some (.integer value pos)
  | .keyword .pi => some (.pi pos)
  | _ => none

mutual

/-- A sum. -/
def expression (ts : List Lexeme) : Reading Expr ts := do
  let left ← term ts
  let all ← moreTerms left.value left.rest
  return ⟨all.value, all.rest, by have := left.shorter; have := all.shorter; omega⟩
termination_by 6 * ts.length + 5
decreasing_by
  · omega
  · have := left.shorter; omega

/-- The terms that follow `left` in a sum. -/
def moreTerms (left : Expr) (ts : List Lexeme) : OptionalReading Expr ts :=
  match ts with
  | [] => return .unread left []
  | l :: rest =>
    match sumOp? l.token with
    | none => return .unread left (l :: rest)
    | some op => do
      let right ← term rest
      let all ← moreTerms (.binary op left right.value) right.rest
      return ⟨all.value, all.rest, by
        have := right.shorter; have := all.shorter; rw [List.length_cons]; omega⟩
termination_by 6 * ts.length
decreasing_by
  · rw [List.length_cons]; omega
  · have := right.shorter; rw [List.length_cons]; omega

/-- A product. -/
def term (ts : List Lexeme) : Reading Expr ts := do
  let left ← unary ts
  let all ← moreFactors left.value left.rest
  return ⟨all.value, all.rest, by have := left.shorter; have := all.shorter; omega⟩
termination_by 6 * ts.length + 4
decreasing_by
  · omega
  · have := left.shorter; omega

/-- The factors that follow `left` in a product. -/
def moreFactors (left : Expr) (ts : List Lexeme) : OptionalReading Expr ts :=
  match ts with
  | [] => return .unread left []
  | l :: rest =>
    match productOp? l.token with
    | none => return .unread left (l :: rest)
    | some op => do
      let right ← unary rest
      let all ← moreFactors (.binary op left right.value) right.rest
      return ⟨all.value, all.rest, by
        have := right.shorter; have := all.shorter; rw [List.length_cons]; omega⟩
termination_by 6 * ts.length
decreasing_by
  · rw [List.length_cons]; omega
  · have := right.shorter; rw [List.length_cons]; omega

/-- A power, or the negation of one. -/
def unary (ts : List Lexeme) : Reading Expr ts :=
  match ts with
  | [] => power []
  | l :: rest =>
    if l.token = .mark .minus then do
      let target ← unary rest
      return ⟨.neg target.value l.pos, target.rest, by
        have := target.shorter; rw [List.length_cons]; omega⟩
    else power (l :: rest)
termination_by 6 * ts.length + 3
decreasing_by
  · omega
  · rw [List.length_cons]; omega
  · omega

/-- An atom, raised to what a caret introduces. -/
def power (ts : List Lexeme) : Reading Expr ts := do
  let base ← atom ts
  match h : base.rest with
  | [] => return base
  | l :: rest =>
    if l.token = .mark .caret then
      have fewer : rest.length < ts.length := by
        have := base.shorter; rw [h, List.length_cons] at this; omega
      let exponent ← unary rest
      return ⟨.binary .pow base.value exponent.value, exponent.rest, by
        have := exponent.shorter; omega⟩
    else return base
termination_by 6 * ts.length + 2
decreasing_by
  · omega
  · omega

/-- A literal, an operand, a call, or an expression in parentheses. -/
def atom (ts : List Lexeme) : Reading Expr ts :=
  match ts with
  | [] => .error (unexpected .expression [])
  | l :: rest =>
    match l.token with
    | .keyword (.call function) => do
      let opened ← mark .openParen rest
      let target ← expression opened.rest
      let closed ← mark .closeParen target.rest
      return ⟨.call function target.value l.pos, closed.rest, by
        have := opened.shorter; have := target.shorter; have := closed.shorter
        rw [List.length_cons]; omega⟩
    | .mark .openParen => do
      let target ← expression rest
      let closed ← mark .closeParen target.rest
      return ⟨target.value, closed.rest, by
        have := target.shorter; have := closed.shorter; rw [List.length_cons]; omega⟩
    | .identifier _ => do
      let v ← operand (l :: rest)
      return v.map .operand
    | token =>
      match literal? l.pos token with
      | some e => return ⟨e, rest, by rw [List.length_cons]; omega⟩
      | none => .error (unexpected .expression (l :: rest))
termination_by 6 * ts.length + 1
decreasing_by
  · have := opened.shorter; rw [List.length_cons]; omega
  · rw [List.length_cons]; omega

end

/-- Expressions with commas between them. -/
def expressionList (ts : List Lexeme) : Reading (List Expr) ts := commaList expression ts

end OpenQasm.Parse
