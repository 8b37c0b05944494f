import OpenQasm.Syntax.Error

/-!
# From characters to tokens

`scan` splits a source text into lexemes, dropping what stands between them: white space, and
comments that run from `#` or `//` to the end of the line. A lexeme is the longest one that the
remaining text starts with; none reaches over the end of a line.

* `piece first rest` reads what stands at the head of a text: its token, or nothing for white
  space and comments, and how many characters it takes after the first.
* `scanFrom` reads pieces until the text is used up and closes with the end of the source.

Model of the lexer, on a text that has been decoded: a list of characters.
-/

namespace OpenQasm

/-- White space: the characters with the property `White_Space`. -/
def isBlank (c : Char) : Bool :=
  let n := c.toNat
  (0x09 ≤ n && n ≤ 0x0D) || n == 0x20 || n == 0x85 || n == 0xA0 || n == 0x1680
    || (0x2000 ≤ n && n ≤ 0x200A) || n == 0x2028 || n == 0x2029 || n == 0x202F || n == 0x205F
    || n == 0x3000

/-- Whether a character can start an identifier. -/
def isNameStart (c : Char) : Bool :=
  ('a' ≤ c && c ≤ 'z') || ('A' ≤ c && c ≤ 'Z') || c == '_'

/-- Whether a character can continue an identifier. -/
def isNameChar (c : Char) : Bool := isNameStart c || Numeral.isDigit c

namespace Token

/-- The integers a literal may write. -/
def integerLimit : Nat := UInt64.size

/-- The token of a numeral. -/
def ofNumeral (parts : Numeral.Parts) : Except SyntaxFault Token :=
  if parts.isReal then
    if parts.wellFormed then .ok (.real parts.value) else .error (.malformedReal parts.text)
  else
    let value := Numeral.natOfDigits parts.whole
    if value < integerLimit then .ok (.integer value) else .error (.integerTooLarge parts.text)

/-- The token of a word: a keyword or an identifier. -/
def ofWord (word : String) : Token :=
  match Keyword.ofText? word with
  | some k => .keyword k
  | none => .identifier word

end Token

/-- The marks of one character that no longer lexeme starts with. -/
def Mark.single? : Char → Option Mark
  | ';' => some .semicolon
  | ',' => some .comma
  | '\x7b' => some .openBrace
  | '\x7d' => some .closeBrace
  | '(' => some .openParen
  | ')' => some .closeParen
  | '[' => some .openBracket
  | ']' => some .closeBracket
  | '+' => some .plus
  | '*' => some .times
  | '^' => some .caret
  | _ => none

/-- The characters up to the end of the line. -/
def restOfLine (cs : List Char) : List Char := cs.takeWhile (· != '\n')

/-- What stands at the head of a text: a token, or nothing for white space and comments, and the
number of characters taken after the first. -/
structure Piece where
  token? : Option Token
  extra : Nat
deriving DecidableEq, Repr

namespace Piece

/-- A token that takes `extra` characters after the first. -/
def of (token : Token) (extra : Nat) : Piece := ⟨some token, extra⟩

/-- The line from `//` or `#` on. -/
def comment (rest : List Char) : Piece := ⟨none, (restOfLine rest).length⟩

/-- A quoted string, its opening quote already read. -/
def quoted (rest : List Char) : Except SyntaxFault Piece :=
  let body := rest.takeWhile fun c => c != '"' && c != '\n'
  match rest.drop body.length with
  | '"' :: _ => .ok (of (.string (String.ofList body)) (body.length + 1))
  | _ => .error .unterminatedString

/-- The numeral that a text starts with. -/
def numeral (first : Char) (rest : List Char) : Except SyntaxFault Piece :=
  let (parts, taken) := Numeral.takeNumeral (first :: rest)
  (Token.ofNumeral parts).map fun token => of token (taken - 1)

/-- The word that a text starts with. -/
def word (first : Char) (rest : List Char) : Piece :=
  let tail := rest.takeWhile isNameChar
  of (Token.ofWord (String.ofList (first :: tail))) tail.length

/-- The piece at the head of the text `first :: rest`. -/
def ofText (first : Char) (rest : List Char) : Except SyntaxFault Piece :=
  if isBlank first then .ok ⟨none, 0⟩
  else if first = '#' then .ok (comment rest)
  else match Mark.single? first with
    | some mark => .ok (of (.mark mark) 0)
    | none =>
      if first = '-' then
        if rest.head? = some '>' then .ok (of (.mark .arrow) 1) else .ok (of (.mark .minus) 0)
      else if first = '=' ∧ rest.head? = some '=' then .ok (of (.mark .equal) 1)
      else if first = '/' then
        if rest.head? = some '/' then .ok (comment rest) else .ok (of (.mark .divide) 0)
      else if first = '"' then quoted rest
      else if Numeral.isDigit first ∨ (first = '.' ∧ rest.head?.any Numeral.isDigit) then
        numeral first rest
      else if isNameStart first then .ok (word first rest)
      else .error (.unexpectedCharacter first)

end Piece

/-- The lexemes of a text that starts at `pos`. -/
def scanFrom (pos : SourcePos) : List Char → Except SyntaxError (List Lexeme)
  | [] => .ok [⟨.endOfFile, pos⟩]
  | first :: rest =>
    match Piece.ofText first rest with
    | .error fault => .error ⟨fault, pos⟩
    | .ok piece =>
      let after := pos.afterAll (first :: rest.take piece.extra)
      match scanFrom after (rest.drop piece.extra), piece.token? with
      | .ok lexemes, some token => .ok (⟨token, pos⟩ :: lexemes)
      | result, _ => result
termination_by text => text.length
decreasing_by simp only [List.length_cons, List.length_drop]; omega

/-- The lexemes of a source text; the last one is the end of the file. -/
def scan (file source : String) : Except SyntaxError (List Lexeme) :=
  scanFrom (.start file) source.toList

end OpenQasm
