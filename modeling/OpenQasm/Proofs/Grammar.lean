import OpenQasm.Syntax.Program

/-!
# The grammar of programs

What each nonterminal derives, as a relation between a list of lexemes and the syntax that it
writes. No relation mentions what stands behind its lexemes: there is no state, no lookahead and no
order in which alternatives are tried.

```
program    := ["OPENQASM" (real | integer) ";"] ("include" string ";")* statement*
statement  := ("qreg" | "creg") id "[" integer "]" ";"
            | "gate" signature "{" bodyStatement* "}"
            | "opaque" signature ";"
            | "barrier" operands ";"
            | "if" "(" operand "==" sum ")" operation
            | operation
operation  := "measure" operand "->" operand ";" | "reset" operand ";" | call ";"
call       := "U" "(" sums ")" operands | ("CX" | id) ["(" [sums] ")"] operands
signature  := id ["(" [ids] ")"] ids
sum        := product | sum ("+" | "-") product
product    := unary | product ("*" | "/") unary
unary      := "-" unary | power
power      := atom | atom "^" unary
atom       := real | integer | "pi" | operand | function "(" sum ")" | "(" sum ")"
operand    := id | id "[" integer "]"
```

A sum and a product group to the left because their left operand may be one of their own kind, and
a power groups to the right because its exponent may. The syntax that is written carries the
positions of the lexemes as well.
-/

namespace OpenQasm.Grammar

variable {α : Type}

/-! ## Repetition -/

/-- Items one after the other. -/
inductive IsMany (item : List Lexeme → α → Prop) : List Lexeme → List α → Prop
  | nil : IsMany item [] []
  | cons {xs ys : List Lexeme} {a : α} {as : List α} :
      item xs a → IsMany item ys as → IsMany item (xs ++ ys) (a :: as)

/-- Items with commas between them, at least one. -/
inductive IsList (item : List Lexeme → α → Prop) : List Lexeme → List α → Prop
  | single {xs : List Lexeme} {a : α} : item xs a → IsList item xs [a]
  | cons {xs ys : List Lexeme} {a : α} {as : List α} {p : SourcePos} :
      item xs a → IsList item ys as → IsList item (xs ++ ⟨.mark .comma, p⟩ :: ys) (a :: as)

/-- A list in parentheses, which may be empty, or nothing at all. -/
inductive IsOptional (list : List Lexeme → List α → Prop) :
    List Lexeme → Option (List α) → Prop
  | absent : IsOptional list [] none
  | empty {p q : SourcePos} :
      IsOptional list [⟨.mark .openParen, p⟩, ⟨.mark .closeParen, q⟩] (some [])
  | items {xs : List Lexeme} {as : List α} {p q : SourcePos} : list xs as →
      IsOptional list (⟨.mark .openParen, p⟩ :: xs ++ [⟨.mark .closeParen, q⟩]) (some as)

/-! ## Names and operands -/

/-- An identifier. -/
inductive IsName : List Lexeme → String → Prop
  | name {x : String} {p : SourcePos} : IsName [⟨.identifier x, p⟩] x

/-- A name, or an element of what it names. -/
inductive IsOperand : List Lexeme → Operand → Prop
  | whole {x : String} {p : SourcePos} : IsOperand [⟨.identifier x, p⟩] ⟨x, none, p⟩
  | element {x : String} {i : Nat} {p q r s : SourcePos} :
      IsOperand [⟨.identifier x, p⟩, ⟨.mark .openBracket, q⟩, ⟨.integer i, r⟩,
        ⟨.mark .closeBracket, s⟩] ⟨x, some i, p⟩

/-! ## Expressions -/

/-- The nonterminals of expressions. -/
inductive Level where
  | sum
  | product
  | unary
  | power
  | atom
deriving DecidableEq, Repr

/-- The lexemes that a nonterminal derives, with the expression that they write. -/
inductive IsExpr : Level → List Lexeme → Expr → Prop
  | product {ts : List Lexeme} {e : Expr} : IsExpr .product ts e → IsExpr .sum ts e
  | add {xs ys : List Lexeme} {a b : Expr} {p : SourcePos} :
      IsExpr .sum xs a → IsExpr .product ys b →
      IsExpr .sum (xs ++ ⟨.mark .plus, p⟩ :: ys) (.binary .add a b)
  | sub {xs ys : List Lexeme} {a b : Expr} {p : SourcePos} :
      IsExpr .sum xs a → IsExpr .product ys b →
      IsExpr .sum (xs ++ ⟨.mark .minus, p⟩ :: ys) (.binary .sub a b)
  | unary {ts : List Lexeme} {e : Expr} : IsExpr .unary ts e → IsExpr .product ts e
  | mul {xs ys : List Lexeme} {a b : Expr} {p : SourcePos} :
      IsExpr .product xs a → IsExpr .unary ys b →
      IsExpr .product (xs ++ ⟨.mark .times, p⟩ :: ys) (.binary .mul a b)
  | div {xs ys : List Lexeme} {a b : Expr} {p : SourcePos} :
      IsExpr .product xs a → IsExpr .unary ys b →
      IsExpr .product (xs ++ ⟨.mark .divide, p⟩ :: ys) (.binary .div a b)
  | power {ts : List Lexeme} {e : Expr} : IsExpr .power ts e → IsExpr .unary ts e
  | neg {ts : List Lexeme} {e : Expr} {p : SourcePos} :
      IsExpr .unary ts e → IsExpr .unary (⟨.mark .minus, p⟩ :: ts) (.neg e p)
  | atom {ts : List Lexeme} {e : Expr} : IsExpr .atom ts e → IsExpr .power ts e
  | pow {xs ys : List Lexeme} {a b : Expr} {p : SourcePos} :
      IsExpr .atom xs a → IsExpr .unary ys b →
      IsExpr .power (xs ++ ⟨.mark .caret, p⟩ :: ys) (.binary .pow a b)
  | real {value : Decimal} {p : SourcePos} : IsExpr .atom [⟨.real value, p⟩] (.real value p)
  | integer {value : Nat} {p : SourcePos} :
      IsExpr .atom [⟨.integer value, p⟩] (.integer value p)
  | pi {p : SourcePos} : IsExpr .atom [⟨.keyword .pi, p⟩] (.pi p)
  | operand {ts : List Lexeme} {v : Operand} : IsOperand ts v → IsExpr .atom ts (.operand v)
  | call {f : Function} {ts : List Lexeme} {e : Expr} {p q r : SourcePos} : IsExpr .sum ts e →
      IsExpr .atom (⟨.keyword (.call f), p⟩ :: ⟨.mark .openParen, q⟩ :: ts ++
        [⟨.mark .closeParen, r⟩]) (.call f e p)
  | group {ts : List Lexeme} {e : Expr} {p q : SourcePos} : IsExpr .sum ts e →
      IsExpr .atom (⟨.mark .openParen, p⟩ :: ts ++ [⟨.mark .closeParen, q⟩]) e

/-! ## Operations -/

/-- A gate applied to operands. Only `U` must have parameters. -/
inductive IsCall : List Lexeme → GateCall → Prop
  | rotation {ps os : List Lexeme} {es : List Expr} {vs : List Operand} {p q r : SourcePos} :
      IsList (IsExpr .sum) ps es → IsList IsOperand os vs →
      IsCall (⟨.keyword .rotation, p⟩ :: ⟨.mark .openParen, q⟩ :: ps ++
        ⟨.mark .closeParen, r⟩ :: os) ⟨.rotation, some es, vs⟩
  | controlledNot {ps os : List Lexeme} {es : Option (List Expr)} {vs : List Operand}
      {p : SourcePos} : IsOptional (IsList (IsExpr .sum)) ps es → IsList IsOperand os vs →
      IsCall (⟨.keyword .controlledNot, p⟩ :: ps ++ os) ⟨.controlledNot, es, vs⟩
  | named {name : String} {ps os : List Lexeme} {es : Option (List Expr)} {vs : List Operand}
      {p : SourcePos} : IsOptional (IsList (IsExpr .sum)) ps es → IsList IsOperand os vs →
      IsCall (⟨.identifier name, p⟩ :: ps ++ os) ⟨.named name, es, vs⟩

/-- A quantum operation, with its semicolon. -/
inductive IsOperation : List Lexeme → Operation → Prop
  | measure {xs ys : List Lexeme} {v w : Operand} {p q r : SourcePos} :
      IsOperand xs v → IsOperand ys w →
      IsOperation (⟨.keyword .measure, p⟩ :: xs ++ ⟨.mark .arrow, q⟩ :: ys ++
        [⟨.mark .semicolon, r⟩]) (.measure v w)
  | reset {xs : List Lexeme} {v : Operand} {p q : SourcePos} : IsOperand xs v →
      IsOperation (⟨.keyword .reset, p⟩ :: xs ++ [⟨.mark .semicolon, q⟩]) (.reset v)
  | call {xs : List Lexeme} {c : GateCall} {p : SourcePos} : IsCall xs c →
      IsOperation (xs ++ [⟨.mark .semicolon, p⟩]) (.call c)

/-! ## Statements -/

/-- The name and the formals of a gate. -/
inductive IsSignature : List Lexeme → Signature → Prop
  | signature {name : String} {xs ys : List Lexeme} {formals : Option (List String)}
      {arguments : List String} {p : SourcePos} :
      IsOptional (IsList IsName) xs formals → IsList IsName ys arguments →
      IsSignature (⟨.identifier name, p⟩ :: xs ++ ys) ⟨name, formals, arguments⟩

/-- A statement of a gate's body, at its first lexeme. -/
inductive IsBodyStatement : List Lexeme → BodyStatement → Prop
  | barrier {xs : List Lexeme} {vs : List Operand} {p q : SourcePos} : IsList IsOperand xs vs →
      IsBodyStatement (⟨.keyword .barrier, p⟩ :: xs ++ [⟨.mark .semicolon, q⟩])
        ⟨.barrier vs, p⟩
  | call {l : Lexeme} {xs : List Lexeme} {c : GateCall} {q : SourcePos} : IsCall (l :: xs) c →
      IsBodyStatement (l :: xs ++ [⟨.mark .semicolon, q⟩]) ⟨.call c, l.pos⟩

/-- A statement without its position. -/
inductive IsAction : List Lexeme → Action → Prop
  | qreg {name : String} {width : Nat} {p q r s t u : SourcePos} :
      IsAction [⟨.keyword .qreg, p⟩, ⟨.identifier name, q⟩, ⟨.mark .openBracket, r⟩,
        ⟨.integer width, s⟩, ⟨.mark .closeBracket, t⟩, ⟨.mark .semicolon, u⟩]
        (.register .quantum name width)
  | creg {name : String} {width : Nat} {p q r s t u : SourcePos} :
      IsAction [⟨.keyword .creg, p⟩, ⟨.identifier name, q⟩, ⟨.mark .openBracket, r⟩,
        ⟨.integer width, s⟩, ⟨.mark .closeBracket, t⟩, ⟨.mark .semicolon, u⟩]
        (.register .classical name width)
  | gate {xs ys : List Lexeme} {signature : Signature} {body : List BodyStatement}
      {p q r : SourcePos} : IsSignature xs signature → IsMany IsBodyStatement ys body →
      IsAction (⟨.keyword .gate, p⟩ :: xs ++ ⟨.mark .openBrace, q⟩ :: ys ++
        [⟨.mark .closeBrace, r⟩]) (.gate signature body)
  | opaqueGate {xs : List Lexeme} {signature : Signature} {p q : SourcePos} :
      IsSignature xs signature →
      IsAction (⟨.keyword .opaqueGate, p⟩ :: xs ++ [⟨.mark .semicolon, q⟩])
        (.opaqueGate signature)
  | barrier {xs : List Lexeme} {vs : List Operand} {p q : SourcePos} : IsList IsOperand xs vs →
      IsAction (⟨.keyword .barrier, p⟩ :: xs ++ [⟨.mark .semicolon, q⟩]) (.barrier vs)
  | conditional {l : Lexeme} {xs ys zs : List Lexeme} {v : Operand} {e : Expr} {o : Operation}
      {p q r s : SourcePos} : IsOperand xs v → IsExpr .sum ys e → IsOperation (l :: zs) o →
      IsAction (⟨.keyword .ifEqual, p⟩ :: ⟨.mark .openParen, q⟩ :: xs ++ ⟨.mark .equal, r⟩ :: ys ++
        ⟨.mark .closeParen, s⟩ :: l :: zs) (.conditional v e o l.pos)
  | operation {xs : List Lexeme} {o : Operation} : IsOperation xs o →
      IsAction xs (.operation o)

/-- A statement, at its first lexeme. -/
inductive IsStatement : List Lexeme → Statement → Prop
  | statement {l : Lexeme} {xs : List Lexeme} {a : Action} : IsAction (l :: xs) a →
      IsStatement (l :: xs) ⟨a, l.pos⟩

/-! ## Programs -/

/-- The header, with the version that it states. -/
inductive IsHeader : List Lexeme → Decimal → Prop
  | real {version : Decimal} {p q r : SourcePos} :
      IsHeader [⟨.keyword .header, p⟩, ⟨.real version, q⟩, ⟨.mark .semicolon, r⟩] version
  | integer {version : Nat} {p q r : SourcePos} :
      IsHeader [⟨.keyword .header, p⟩, ⟨.integer version, q⟩, ⟨.mark .semicolon, r⟩] ⟨version, 0⟩

/-- An include directive, at its first lexeme. -/
inductive IsInclude : List Lexeme → Include → Prop
  | directive {path : String} {p q r : SourcePos} :
      IsInclude [⟨.keyword .includeFile, p⟩, ⟨.string path, q⟩, ⟨.mark .semicolon, r⟩] ⟨path, p⟩

/-- A program read from `file`. The header may be left out unless it is `required`; the version is
then two. -/
inductive IsProgram (required : Bool) (file : String) : List Lexeme → Program → Prop
  | headed {xs ys zs : List Lexeme} {version : Decimal} {includes : List Include}
      {statements : List Statement} : IsHeader xs version → IsMany IsInclude ys includes →
      IsMany IsStatement zs statements →
      IsProgram required file (xs ++ ys ++ zs) ⟨file, version, includes, statements⟩
  | bare {ys zs : List Lexeme} {includes : List Include} {statements : List Statement} :
      required = false → IsMany IsInclude ys includes → IsMany IsStatement zs statements →
      IsProgram required file (ys ++ zs) ⟨file, ⟨2, 0⟩, includes, statements⟩

end OpenQasm.Grammar
