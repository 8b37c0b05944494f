import OpenQasm.Numeral.Shortest
import OpenQasm.Numeral.Decimal
import OpenQasm.Syntax.Position

/-!
# Tokens of OpenQASM 2

A token is a name, a literal, a keyword or a mark. Real literals are exact decimals. The end of
the source is a token of its own, so that a diagnostic can point at it.

Model of the tokens of the lexer and of their texts in messages.
-/

namespace OpenQasm

/-- The functions an expression may call. -/
inductive Function where
  | sin | cos | tan | exp | ln | sqrt
deriving DecidableEq, Repr

namespace Function

/-- All functions. -/
def all : List Function := [.sin, .cos, .tan, .exp, .ln, .sqrt]

/-- The name by which a function is called. -/
def name : Function → String
  | .sin => "sin"
  | .cos => "cos"
  | .tan => "tan"
  | .exp => "exp"
  | .ln => "ln"
  | .sqrt => "sqrt"

end Function

/-- Words that are not identifiers. -/
inductive Keyword where
  | header
  | includeFile
  | opaqueGate
  | ifEqual
  | barrier
  | qreg
  | creg
  | gate
  | measure
  | reset
  | rotation
  | controlledNot
  | pi
  | call (function : Function)
deriving DecidableEq, Repr

namespace Keyword

/-- All keywords. -/
def all : List Keyword :=
  [.header, .includeFile, .opaqueGate, .ifEqual, .barrier, .qreg, .creg, .gate, .measure, .reset,
    .rotation, .controlledNot, .pi] ++ Function.all.map .call

/-- The spelling of a keyword. -/
def text : Keyword → String
  | .header => "OPENQASM"
  | .includeFile => "include"
  | .opaqueGate => "opaque"
  | .ifEqual => "if"
  | .barrier => "barrier"
  | .qreg => "qreg"
  | .creg => "creg"
  | .gate => "gate"
  | .measure => "measure"
  | .reset => "reset"
  | .rotation => "U"
  | .controlledNot => "CX"
  | .pi => "pi"
  | .call function => function.name

/-- The keyword that a word spells. -/
def ofText? (word : String) : Option Keyword := all.find? fun k => k.text == word

end Keyword

/-- Marks of punctuation and operators. -/
inductive Mark where
  | semicolon | comma | equal | arrow
  | openBrace | closeBrace | openParen | closeParen | openBracket | closeBracket
  | plus | minus | times | divide | caret
deriving DecidableEq, Repr

/-- The spelling of a mark. -/
def Mark.text : Mark → String
  | .semicolon => ";"
  | .comma => ","
  | .equal => "=="
  | .arrow => "->"
  | .openBrace => "\x7b"
  | .closeBrace => "\x7d"
  | .openParen => "("
  | .closeParen => ")"
  | .openBracket => "["
  | .closeBracket => "]"
  | .plus => "+"
  | .minus => "-"
  | .times => "*"
  | .divide => "/"
  | .caret => "^"

/-- A token. -/
inductive Token where
  | identifier (name : String)
  | real (value : Decimal)
  | integer (value : Nat)
  | string (text : String)
  | keyword (word : Keyword)
  | mark (m : Mark)
  | endOfFile
deriving DecidableEq, Repr

/-- How a token is named in a diagnostic. -/
def Token.describe : Token → String
  | .identifier name => "identifier '" ++ name ++ "'"
  | .real value => "real " ++ Numeral.plainText value.toFloat
  | .integer value => "integer " ++ toString value
  | .string text => "string \"" ++ text ++ "\""
  | .keyword word => "'" ++ word.text ++ "'"
  | .mark m => "'" ++ m.text ++ "'"
  | .endOfFile => "'end of file'"

/-- A token and where it starts. -/
structure Lexeme where
  token : Token
  pos : SourcePos
deriving DecidableEq, Repr

end OpenQasm
