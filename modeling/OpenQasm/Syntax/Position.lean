/-!
# Source positions

Every token, syntax node and diagnostic carries the place it came from. Lines and columns are
counted from one; a column counts characters.

Model of the context of a token. A file is known by the text of its path.
-/

namespace OpenQasm

/-- A place in a named source text. -/
structure SourcePos where
  file : String
  line : Nat
  column : Nat
deriving DecidableEq, Repr, Inhabited

namespace SourcePos

/-- A position as `file:line:column`. -/
def text (p : SourcePos) : String := s!"{p.file}:{p.line}:{p.column}"

/-- The start of a source text. -/
def start (file : String) : SourcePos := ⟨file, 1, 1⟩

/-- The position after a character. -/
def after (p : SourcePos) (c : Char) : SourcePos :=
  if c = '\n' then ⟨p.file, p.line + 1, 1⟩ else ⟨p.file, p.line, p.column + 1⟩

/-- The position after a text. -/
def afterAll (p : SourcePos) (cs : List Char) : SourcePos := cs.foldl after p

/-- A position in front of a message. -/
def label (p : SourcePos) (message : String) : String := "[" ++ p.text ++ "] " ++ message

end SourcePos

end OpenQasm
