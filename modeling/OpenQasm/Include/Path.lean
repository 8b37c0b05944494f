/-!
# Paths

Paths are kept as they are written, since messages show them so. Two paths are compared by their
components: empty components are ignored, and so is `.` unless it starts a relative path.

* `Path.join` puts a path behind a directory; an absolute path replaces the directory.
* `Path.parent?` drops the last component and the separators in front of it.

Model of the operations on paths that the loader uses. Out of scope: paths that are no texts, and
those of systems with drives.
-/

namespace OpenQasm.Path

/-- The parts between slashes. -/
def segments (path : String) : List String :=
  (path.toList.splitOn '/').map String.ofList

/-- Whether a path starts at the root. -/
def isAbsolute (path : String) : Bool := path.toList.head? == some '/'

/-- Whether a part between slashes says nothing. -/
def isIdle (segment : String) : Bool := segment == "" || segment == "."

/-- The components that distinguish a path from others. -/
def components (path : String) : List String :=
  match segments path with
  | "." :: rest => "." :: rest.filter (!isIdle ·)
  | all => all.filter (!isIdle ·)

/-- A path taken relative to a directory. -/
def join (directory path : String) : String :=
  if isAbsolute path ∨ directory = "" then path
  else if directory.toList.getLast? = some '/' then directory ++ path
  else directory ++ "/" ++ path

/-- Drop the idle parts at the end. -/
def trimmed (segments : List String) : List String :=
  (segments.reverse.dropWhile isIdle).reverse

/-- Parts put together, with the root in front if asked. -/
def assemble (absolute : Bool) (segments : List String) : String :=
  (if absolute then "/" else "") ++ "/".intercalate segments

/-- The directory that holds what a path names; the root and the empty path have none. -/
def parent? (path : String) : Option String :=
  let absolute := isAbsolute path
  let (first, body) :=
    match segments path with
    | "." :: rest => (["."], rest)
    | "" :: rest => ([], rest)
    | all => ([], all)
  match trimmed body with
  | [] => if first = [] then none else some ""
  | named => some (assemble absolute (first ++ trimmed named.dropLast))

end OpenQasm.Path
