import OpenQasm.Expansion
import OpenQasm.Include.FileSystem
import OpenQasm.Include.StandardGates

/-!
# Resolving includes

The statements of an included file stand in front of the statements of the file that includes it,
include after include and at every depth. Paths are taken relative to the including file's
directory; the name of the bundled library stands for that library.

A file that is being expanded cannot be included again: `stack` holds the files that are, the
innermost first. Every file that can be read and is not on the stack is one of finitely many,
which is why the expansion ends.

Model of the loader. Out of scope: files that change while a program is loaded.
-/

namespace OpenQasm

/-- Why a program cannot be loaded. -/
inductive LoadError where
  | malformed (error : SyntaxError)
  | unreadable (path : String) (fault : FileFault)
deriving DecidableEq, Repr

/-- The text of an error, with the kind of error in front. -/
def LoadError.message : LoadError → String
  | .malformed error => "parse error " ++ error.message
  | .unreadable path fault => "cannot read " ++ path ++ ": " ++ fault.message

namespace FileSystem

/-- The files that a path can lead to. -/
def keys (fs : FileSystem) : List FileKey := fs.files.map fun f => .existing f.1

/-- What can be read is a known file. -/
theorem key_mem_keys {fs : FileSystem} {path content : String} (h : fs.read path = .ok content) :
    fs.key path ∈ fs.keys := by
  obtain ⟨name, hkey, hlook⟩ := key_of_read h
  obtain ⟨before, after, hfiles, _⟩ := List.lookup_eq_some_iff.mp hlook
  rw [hkey, keys, hfiles, List.map_append, List.map_cons]
  exact List.mem_append_right _ List.mem_cons_self

end FileSystem

namespace Include

/-- The path that an include directive names, relative to a directory if there is one. -/
def target (directory : Option String) (i : Include) : String :=
  match directory with
  | some d => Path.join d i.path
  | none => i.path

/-- The statements that include directives stand for. -/
def expandAll (fs : FileSystem) (stack : List FileKey) (directory : Option String)
    (includes : List Include) : Except LoadError (List Statement) := do
  let parts ← includes.mapM fun i =>
    if i.path = StandardGates.fileName then do
      let library ← StandardGates.program.mapError .malformed
      return library.statements
    else
      let path := i.target directory
      let key := fs.key path
      if stack.head? = some key then .error (.malformed ⟨.includesItself i.path, i.pos⟩)
      else if hnew : key ∈ stack then .error (.malformed ⟨.includeCycle i.path, i.pos⟩)
      else match hread : fs.read path with
        | .error fault => .error (.unreadable path fault)
        | .ok content => do
          let included ← (Program.fragmentOfText path content).mapError .malformed
          have := pending_cons_lt (FileSystem.key_mem_keys hread) hnew
          let inner ← expandAll fs (key :: stack) (Path.parent? path) included.includes
          return inner ++ included.statements
  return parts.flatten
termination_by pending fs.keys stack

end Include

namespace Program

/-- Put the statements of the included files in front of a program's own. -/
def expand (fs : FileSystem) (stack : List FileKey) (directory : Option String) (p : Program) :
    Except LoadError Program := do
  let included ← Include.expandAll fs stack directory p.includes
  return { p with statements := included ++ p.statements }

/-- Load a program from a file. -/
def load (fs : FileSystem) (path : String) : Except LoadError Program := do
  let content ← (fs.read path).mapError (.unreadable path)
  let program ← (ofText path content).mapError .malformed
  program.expand fs [fs.key path] (Path.parent? path)

/-- Load a program from a text, its includes being taken from the starting directory. -/
def loadText (fs : FileSystem) (file source : String) : Except LoadError Program := do
  let program ← (ofText file source).mapError .malformed
  program.expand fs [fs.key file] none

end Program

end OpenQasm
