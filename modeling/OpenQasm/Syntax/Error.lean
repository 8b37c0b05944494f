import OpenQasm.Syntax.Token

/-!
# Errors of reading a source text

A syntax error is a cause and the position at fault. Its message puts the position in front.

Model of the errors of the lexer, the parser and the loader, and of their texts.
-/

namespace OpenQasm

/-- What the grammar allows at a place. -/
inductive Expected where
  | token (t : Token)
  | identifier
  | integer
  | version
  | fileName
  | statement
  | expression
deriving DecidableEq, Repr

/-- How an expectation is named in a diagnostic. -/
def Expected.describe : Expected → String
  | .token t => t.describe
  | .identifier => "an identifier"
  | .integer => "a non-negative integer"
  | .version => "a version number"
  | .fileName => "a quoted file name"
  | .statement => "a statement"
  | .expression => "an expression"

/-- What is wrong with a source text. -/
inductive SyntaxFault where
  | unexpectedCharacter (c : Char)
  | unterminatedString
  | malformedReal (text : String)
  | integerTooLarge (text : String)
  | unexpected (expected : Expected) (found : Token)
  | notInGateBody (found : Token)
  | lateInclude
  | includesItself (path : String)
  | includeCycle (path : String)
deriving DecidableEq, Repr

/-- The text of a fault, without its position. -/
def SyntaxFault.message : SyntaxFault → String
  | .unexpectedCharacter c => "unexpected character '" ++ c.toString ++ "'"
  | .unterminatedString => "unterminated string literal"
  | .malformedReal text => "malformed real literal " ++ text
  | .integerTooLarge text => "integer literal " ++ text ++ " is too large"
  | .unexpected expected found => "expected " ++ expected.describe ++ ", found " ++ found.describe
  | .notInGateBody found => found.describe ++ " is not allowed inside a gate body"
  | .lateInclude => "include directives must precede all other statements"
  | .includesItself path => "file " ++ path ++ " includes itself"
  | .includeCycle path => "include cycle through " ++ path

/-- A fault and the position at which it was found. -/
structure SyntaxError where
  fault : SyntaxFault
  pos : SourcePos
deriving DecidableEq, Repr

/-- The text of an error, its position in front. -/
def SyntaxError.message (e : SyntaxError) : String := e.pos.label e.fault.message

end OpenQasm
