import OpenQasm.Scope.Symbol

/-!
# Symbol tables

Lexically nested scopes, kept in the order in which they were opened; the number of a scope never
changes and scopes are never removed. Leaving a scope can save it under a name in the scope around
it, from where it can be entered again.

* `declare` binds a name in the current scope, replacing an earlier binding there.
* `lookup?` searches the current scope and then the scopes around it.
* `popAndSave` leaves the current scope; the first scope saved under a name is kept.
* `restore` enters a scope saved in the current one.

A scope lies inside scopes with smaller numbers only. Searching outwards and listing inwards
therefore end after at most as many steps as there are scopes, and both are written by recursion
on that number.

Model of the symbol table of the checker, with the listing of its scopes.
-/

namespace OpenQasm

/-- The number of a scope. -/
abbrev ScopeId := Nat

/-- The bindings of one scope, the scope around it while it is open, and what is saved in it. -/
structure Scope where
  symbols : List Symbol
  outer : Option ScopeId
  saved : List (String × ScopeId)
deriving DecidableEq, Repr

namespace Scope

/-- A scope without bindings. -/
def empty (outer : Option ScopeId) : Scope := ⟨[], outer, []⟩

/-- The binding of a name. -/
def find? (s : Scope) (name : String) : Option Symbol := s.symbols.find? (·.name == name)

/-- Bind a symbol, replacing the binding of its name. -/
def bind (s : Scope) (symbol : Symbol) : Scope :=
  if (s.find? symbol.name).isSome then
    { s with symbols := s.symbols.map fun old => if old.name = symbol.name then symbol else old }
  else { s with symbols := s.symbols ++ [symbol] }

/-- The scope saved under a name. -/
def saved? (s : Scope) (name : String) : Option ScopeId := s.saved.lookup name

/-- Save a scope under a name, unless one is saved under it already. -/
def save (s : Scope) (name : String) (id : ScopeId) : Scope :=
  if (s.saved? name).isSome then s else { s with saved := s.saved ++ [(name, id)] }

end Scope

/-- All scopes that were opened, and the one that is current. -/
structure SymbolTable where
  scopes : Array Scope
  current : Option ScopeId
deriving DecidableEq, Repr

namespace SymbolTable

/-- No scope is open. -/
def empty : SymbolTable := ⟨#[], none⟩

/-- Open a scope inside the current one. Answers its number. -/
def push (t : SymbolTable) : ScopeId × SymbolTable :=
  (t.scopes.size, ⟨t.scopes.push (.empty t.current), some t.scopes.size⟩)

/-- Bind a symbol in the current scope. Answers the binding that it replaces; fails with the
symbol when no scope is open. -/
def declare (t : SymbolTable) (symbol : Symbol) : Except Symbol (Option Symbol × SymbolTable) :=
  match t.current with
  | none => .error symbol
  | some id =>
    .ok ((t.scopes[id]?).bind (·.find? symbol.name),
      { t with scopes := t.scopes.modify id (·.bind symbol) })

/-- Search a scope and, unless it alone is asked for, the scopes around it. -/
def lookupFrom (t : SymbolTable) (name : String) (hereOnly : Bool) :
    Nat → Option ScopeId → Option Symbol
  | _, none => none
  | 0, _ => none
  | steps + 1, some id =>
    match t.scopes[id]? with
    | none => none
    | some scope =>
      match scope.find? name with
      | some symbol => some symbol
      | none => if hereOnly then none else lookupFrom t name hereOnly steps scope.outer

/-- What a name stands for in the current scope or, if it is not bound there, around it. -/
def lookup? (t : SymbolTable) (name : String) : Option Symbol :=
  t.lookupFrom name false t.scopes.size t.current

/-- What a name stands for in the current scope alone. -/
def lookupHere? (t : SymbolTable) (name : String) : Option Symbol :=
  t.lookupFrom name true t.scopes.size t.current

/-- Leave the current scope, saving it under a name in the scope around it. -/
def popAndSave (t : SymbolTable) (name : String) : SymbolTable :=
  match t.current with
  | none => t
  | some id =>
    let outer := (t.scopes[id]?).bind (·.outer)
    let left := t.scopes.modify id fun s => { s with outer := none }
    match outer with
    | none => ⟨left, none⟩
    | some parent => ⟨left.modify parent (·.save name id), some parent⟩

/-- Enter the scope saved under a name in the current one, if there is one. -/
def restore? (t : SymbolTable) (name : String) : Option SymbolTable :=
  match t.current with
  | none => none
  | some parent =>
    match (t.scopes[parent]?).bind (·.saved? name) with
    | none => none
    | some id =>
      some ⟨t.scopes.modify id fun s => { s with outer := some parent }, some id⟩

/-! ## Listings -/

/-- The bindings of the current scope, by name. -/
def symbols (t : SymbolTable) : List Symbol :=
  match t.current.bind (t.scopes[·]?) with
  | none => []
  | some scope => scope.symbols.mergeSort fun a b => decide (a.name ≤ b.name)

/-- Declarations are listed by line, those of one line by name. -/
def listedBefore (a b : Symbol) : Bool :=
  a.line < b.line || (a.line == b.line && decide (a.name ≤ b.name))

/-- One line of a listing. -/
def dumpLine (indent : String) (s : Symbol) : String :=
  indent ++ "  " ++ s.name ++ " : " ++ s.kind.describe ++ " (line " ++ toString s.line ++ ")\n"

/-- The listing of a scope and of the scopes saved in it. -/
def dumpScope (t : SymbolTable) : Nat → ScopeId → String → String → String
  | 0, _, _, _ => ""
  | steps + 1, id, title, indent =>
    match t.scopes[id]? with
    | none => ""
    | some scope =>
      let saved := scope.saved.mergeSort fun a b => decide (a.1 ≤ b.1)
      indent ++ "scope " ++ title ++ "\n"
        ++ String.join ((scope.symbols.mergeSort listedBefore).map (dumpLine indent))
        ++ String.join (saved.map fun s => dumpScope t steps s.2 s.1 (indent ++ "  "))

/-- The listing of the current scope and, inside it, of every scope saved in it. -/
def dump (t : SymbolTable) : String :=
  match t.current with
  | none => ""
  | some id => t.dumpScope t.scopes.size id "<global>" ""

end SymbolTable

end OpenQasm
