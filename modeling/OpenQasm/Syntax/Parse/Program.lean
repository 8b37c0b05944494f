import OpenQasm.Syntax.Parse.Statement
import OpenQasm.Syntax.Scan

/-!
# Reading programs

```
program := ["OPENQASM" (real | integer) ";"] ("include" string ";")* statement*
```

* `Program.ofText` reads a main program, which must start with the header.
* `Program.fragmentOfText` reads an included file, where the header may be left out.

Includes are recorded, not resolved.

Model of the parser, together with the readers of statements and expressions. Out of scope: how deep
an expression may be nested before there is no more stack.
-/

namespace OpenQasm

namespace Parse

/-- The number in a header. -/
def versionNumber (ts : List Lexeme) : Reading Decimal ts :=
  next .version (fun | .real value => some value | .integer value => some ⟨value, 0⟩ | _ => none) ts

/-- The header, with its semicolon. -/
def header (ts : List Lexeme) : Reading Decimal ts := do
  let word ← exactly (.keyword .header) ts
  let version ← terminated (versionNumber word.rest)
  return word.followedBy version

/-- The version of a text that states none. -/
def defaultVersion : Decimal := ⟨2, 0⟩

/-- The header, which may be left out unless it is `required`. -/
def header? (required : Bool) (ts : List Lexeme) : OptionalReading Decimal ts :=
  if required ∨ peek ts = .keyword .header then do
    let version ← header ts
    return version.widen (Nat.le_succ _)
  else return .unread defaultVersion ts

/-- An include directive. -/
def includeDirective (ts : List Lexeme) : Reading Include ts := do
  let word ← exactly (.keyword .includeFile) ts
  let path ← terminated
    (next .fileName (fun | .string text => some text | _ => none) word.rest)
  return ⟨⟨path.value, here ts⟩, path.rest, by
    have := word.shorter; have := path.shorter; omega⟩

/-- The include directives at the head. -/
def includes (ts : List Lexeme) : OptionalReading (List Include) ts :=
  if peek ts = .keyword .includeFile then do
    let first ← includeDirective ts
    let others ← includes first.rest
    return ⟨first.value :: others.value, others.rest, by
      have := first.shorter; have := others.shorter; omega⟩
  else return .unread [] ts
termination_by ts.length
decreasing_by exact first.shorter

/-- The statements up to the end of the file. -/
def statements (ts : List Lexeme) : Except SyntaxError (List Statement) :=
  if peek ts = .endOfFile then return []
  else if peek ts = .keyword .includeFile then .error ⟨.lateInclude, here ts⟩
  else do
    let first ← statement ts
    return first.value :: (← statements first.rest)
termination_by ts.length
decreasing_by exact first.shorter

end Parse

namespace Program

/-- The program that a list of lexemes writes. -/
def ofLexemes (headerRequired : Bool) (file : String) (ts : List Lexeme) :
    Except SyntaxError Program := do
  let version ← Parse.header? headerRequired ts
  let includes ← Parse.includes version.rest
  let statements ← Parse.statements includes.rest
  return ⟨file, version.value, includes.value, statements⟩

/-- The main program that a text writes; it must start with the header. -/
def ofText (file source : String) : Except SyntaxError Program := do
  ofLexemes true file (← scan file source)

/-- The program that an included text writes; its header may be left out. -/
def fragmentOfText (file source : String) : Except SyntaxError Program := do
  ofLexemes false file (← scan file source)

end Program

end OpenQasm
