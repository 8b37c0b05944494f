import OpenQasm.Syntax.Program
import OpenQasm.Syntax.Error

/-!
# Reading a value from a list of lexemes

A reader takes the remaining lexemes and answers a value, the lexemes after it, and the proof
that they are fewer. That proof is what repetition and recursion end by. A reader that fails
points at the first lexeme that it cannot accept; it never reads past the end of the file.

* `next` reads one lexeme that a test accepts.
* `commaList` reads one or more items with commas between them.
-/

namespace OpenQasm.Parse

/-- A value that was read, and the lexemes after it, fewer than `bound`. -/
structure Parsed (α : Type) (bound : Nat) where
  value : α
  rest : List Lexeme
  shorter : rest.length < bound

/-- What reading a value from these lexemes answers. -/
abbrev Reading (α : Type) (ts : List Lexeme) := Except SyntaxError (Parsed α ts.length)

/-- What reading answers that may also leave all the lexemes. -/
abbrev OptionalReading (α : Type) (ts : List Lexeme) :=
  Except SyntaxError (Parsed α (ts.length + 1))

namespace Parsed

variable {α β : Type} {bound : Nat}

/-- Change the value. -/
def map (f : α → β) (p : Parsed α bound) : Parsed β bound := ⟨f p.value, p.rest, p.shorter⟩

/-- A value that was read among no more lexemes than these. -/
def widen {inner : Nat} (p : Parsed α inner) (h : inner ≤ bound) : Parsed α bound :=
  ⟨p.value, p.rest, Nat.lt_of_lt_of_le p.shorter h⟩

/-- The value that was read after a first one. -/
def followedBy (first : Parsed α bound) (p : Parsed β first.rest.length) : Parsed β bound :=
  p.widen (Nat.le_of_lt first.shorter)

/-- A value that takes no lexeme. -/
def unread (value : α) (ts : List Lexeme) : Parsed α (ts.length + 1) :=
  ⟨value, ts, Nat.lt_succ_self _⟩

end Parsed

/-- The token at the head. -/
def peek : List Lexeme → Token
  | l :: _ => l.token
  | [] => .endOfFile

/-- The position at the head. -/
def here : List Lexeme → SourcePos
  | l :: _ => l.pos
  | [] => default

/-- The error of finding something else at the head. -/
def unexpected (expected : Expected) (ts : List Lexeme) : SyntaxError :=
  ⟨.unexpected expected (peek ts), here ts⟩

/-- One lexeme whose token `accept` takes. -/
def next {α : Type} (expected : Expected) (accept : Token → Option α) :
    (ts : List Lexeme) → Reading α ts
  | [] => .error (unexpected expected [])
  | l :: rest =>
    match accept l.token with
    | some a => .ok ⟨a, rest, by simp⟩
    | none => .error (unexpected expected (l :: rest))

/-- A given token. -/
def exactly (token : Token) (ts : List Lexeme) : Reading Unit ts :=
  next (.token token) (fun t => if t = token then some () else none) ts

/-- A given mark. -/
def mark (m : Mark) (ts : List Lexeme) : Reading Unit ts := exactly (.mark m) ts

/-- An identifier. -/
def identifier (ts : List Lexeme) : Reading String ts :=
  next .identifier (fun | .identifier name => some name | _ => none) ts

/-- An integer. -/
def integer (ts : List Lexeme) : Reading Nat ts :=
  next .integer (fun | .integer value => some value | _ => none) ts

/-- Items with commas between them, at least one. -/
def commaList {α : Type} (item : (ts : List Lexeme) → Reading α ts) (ts : List Lexeme) :
    Reading (List α) ts := do
  let first ← item ts
  match h : first.rest with
  | l :: rest =>
    if l.token = .mark .comma then
      have : rest.length < ts.length := by have := first.shorter; simp [h] at this; omega
      let others ← commaList item rest
      return ⟨first.value :: others.value, others.rest, by have := others.shorter; omega⟩
    else return ⟨[first.value], first.rest, first.shorter⟩
  | [] => return ⟨[first.value], first.rest, first.shorter⟩
termination_by ts.length

/-- Identifiers with commas between them. -/
def identifierList (ts : List Lexeme) : Reading (List String) ts := commaList identifier ts

/-- The index of an operand, if brackets follow. -/
def index? (ts : List Lexeme) : OptionalReading (Option Nat) ts :=
  if peek ts = .mark .openBracket then do
    let opened ← mark .openBracket ts
    let i ← integer opened.rest
    let closed ← mark .closeBracket i.rest
    return ⟨some i.value, closed.rest, by
      have := opened.shorter; have := i.shorter; have := closed.shorter; omega⟩
  else return .unread none ts

/-- An operand: `name` or `name[index]`. -/
def operand (ts : List Lexeme) : Reading Operand ts := do
  let name ← identifier ts
  let index ← index? name.rest
  return ⟨⟨name.value, index.value, here ts⟩, index.rest, by
    have := name.shorter; have := index.shorter; omega⟩

/-- Operands with commas between them. -/
def operandList (ts : List Lexeme) : Reading (List Operand) ts := commaList operand ts

end OpenQasm.Parse
