import OpenQasm.Include.FileSystem

/-!
# File trees

A tree of files and directories, each at a place: the names on the way to it from the root. A
directory exists as long as it holds something; the directory that relative paths start from, the
home of the tree, always exists.

A path is walked segment by segment. Only a directory can be left or entered, so `x/..` leads
nowhere if `x` is a file or does not exist. The directory above the root is the root.

* `FileTree.walk` finds the place that a path leads to, `FileTree.fileSystem` is the file system
  of a tree: a file's canonical name is its place.
* `FileTree.create` puts a file at a path. The file may exist, its directory has to; a path that
  ends in a slash asks for a directory.

Model of the files that a command reads and writes. Out of scope: links, permissions, empty
directories.
-/

namespace OpenQasm

/-- Files by the names on the way from the root, and the place where relative paths start. -/
structure FileTree where
  home : List String
  files : List (List String × String)
deriving DecidableEq, Repr

namespace FileTree

/-! ## Places -/

/-- Whether a file is at a place. -/
def isFile (t : FileTree) (place : List String) : Bool := t.files.any (·.1 == place)

/-- Whether a directory is at a place: it holds a file or the home, or is the home. -/
def isDirectory (t : FileTree) (place : List String) : Bool :=
  place.isPrefixOf t.home || t.files.any fun f => place.isPrefixOf f.1 && place != f.1

/-- The canonical name of a place. -/
def name (place : List String) : String := "/" ++ "/".intercalate place

/-- Where the walk of a path starts. -/
def start (t : FileTree) (path : String) : List String :=
  if Path.isAbsolute path then [] else t.home

/-! ## Walking -/

/-- The longest name of a file or directory, in bytes. -/
def longestName : Nat := 255

/-- One step of a walk. -/
def step (t : FileTree) (place : List String) (segment : String) :
    Except FileFault (List String) :=
  if t.isFile place then .error .notADirectory
  else if Path.isIdle segment then .ok place
  else if segment = ".." then .ok place.dropLast
  else if longestName < segment.utf8ByteSize then .error .nameTooLong
  else
    let next := place ++ [segment]
    if t.isFile next || t.isDirectory next then .ok next else .error .notFound

/-- The place that a path leads to. -/
def walk (t : FileTree) (path : String) : Except FileFault (List String) :=
  if path = "" then .error .notFound
  else (Path.segments path).foldlM t.step (t.start path)

/-- The file system of a tree. -/
def fileSystem (t : FileTree) : FileSystem where
  files := t.files.map fun f => (name f.1, f.2)
  locate path := (t.walk path).map name

/-! ## Writing -/

/-- Put a file at a place, in place of one that is there. -/
def put (t : FileTree) (place : List String) (content : String) : FileTree :=
  { t with files := (place, content) :: t.files.filter (·.1 != place) }

/-- Put a file into a directory. -/
def createIn (t : FileTree) (directory : List String) (segment content : String) :
    Except FileFault FileTree :=
  if t.isFile directory then .error .notADirectory
  else if segment = "" ∨ segment = "." ∨ segment = ".." then .error .isDirectory
  else if longestName < segment.utf8ByteSize then .error .nameTooLong
  else
    let place := directory ++ [segment]
    if t.isDirectory place then .error .isDirectory else .ok (t.put place content)

/-- The segments on the way to the directory that holds what a path names, and the last segment;
the last segment is empty if the path ends in a slash. -/
def lastSplit (path : String) : List String × String :=
  match (Path.segments path).reverse with
  | "" :: before => (((before.dropWhile (· == "")).drop 1).reverse, "")
  | last :: before => (before.reverse, last)
  | [] => ([], "")

/-- Put a file at a path. -/
def create (t : FileTree) (path content : String) : Except FileFault FileTree :=
  match FileFault.ofPath? path with
  | some fault => .error fault
  | none =>
    if path = "" then .error .notFound
    else do
      let (before, last) := lastSplit path
      t.createIn (← before.foldlM t.step (t.start path)) last content

/-- Why a file cannot be created at a path, if it cannot. -/
def creationFault? (t : FileTree) (path : String) : Option FileFault :=
  match t.create path "" with
  | .ok _ => none
  | .error fault => some fault

/-! ## Trees from paths -/

/-- The place that a path names if every directory on the way exists. -/
def place (home : List String) (path : String) : List String :=
  let follow (place : List String) (segment : String) : List String :=
    if Path.isIdle segment then place
    else if segment = ".." then place.dropLast
    else place ++ [segment]
  (Path.segments path).foldl follow (if Path.isAbsolute path then [] else home)

/-- The tree with these files, each named by a path from the home; of two files at one place the
later stays. -/
def ofFiles (home : List String) (files : List (String × String)) : FileTree :=
  files.foldl (fun t f => t.put (place home f.1) f.2) ⟨home, []⟩

end FileTree

end OpenQasm
