import OpenQasm.Include.Path

/-!
# File systems

A file system is a finite collection of files, each under one canonical name, together with a
function that finds the file or directory that a path names. Different paths may name one file.

* `FileSystem.key` identifies what a path names; a path that names nothing stands for itself.
* `FileSystem.read` takes only paths that `FileFault.ofPath?` finds no fault with. Identifying a
  path has no such limit: what a path is too long to be read by may still be known under it.

Model of what the loader asks of the operating system: which file a path names, and its text. How a
path leads to its file is any function here; `FileTree` has the one of a tree.
-/

namespace OpenQasm

/-- Why a file cannot be read or written. -/
inductive FileFault where
  | notFound
  | isDirectory
  | notADirectory
  | nameTooLong
  | nulInName
  | other (text : String)
deriving DecidableEq, Repr

namespace FileFault

/-- The operating system's text of a fault. -/
def message : FileFault → String
  | .notFound => "No such file or directory (os error 2)"
  | .isDirectory => "Is a directory (os error 21)"
  | .notADirectory => "Not a directory (os error 20)"
  | .nameTooLong => "File name too long (os error 36)"
  | .nulInName => "file name contained an unexpected NUL byte"
  | .other text => text

/-- The longest path that a file operation takes, in bytes. -/
def longestPath : Nat := 4095

/-- Why no file operation takes a path, whatever files there are. -/
def ofPath? (path : String) : Option FileFault :=
  if path.toList.any (·.toNat == 0) then some .nulInName
  else if longestPath < path.utf8ByteSize then some .nameTooLong
  else none

end FileFault

/-- What a path stands for: something that exists, under its canonical name, or itself. -/
inductive FileKey where
  | existing (name : String)
  | missing (absolute : Bool) (components : List String)
deriving DecidableEq, Repr

/-- Files by canonical name, and the canonical name of what a path names. -/
structure FileSystem where
  files : List (String × String)
  locate : String → Except FileFault String

namespace FileSystem

/-- The identity of what a path names. -/
def key (fs : FileSystem) (path : String) : FileKey :=
  match fs.locate path with
  | .ok name => .existing name
  | .error _ => .missing (Path.isAbsolute path) (Path.components path)

/-- The content of the file that a path names. -/
def read (fs : FileSystem) (path : String) : Except FileFault String :=
  match FileFault.ofPath? path with
  | some fault => .error fault
  | none =>
    match fs.locate path with
    | .error fault => .error fault
    | .ok name =>
      match fs.files.lookup name with
      | some content => .ok content
      | none => .error .isDirectory

/-- A file that can be read exists under a canonical name. -/
theorem key_of_read {fs : FileSystem} {path content : String} (h : fs.read path = .ok content) :
    ∃ name, fs.key path = .existing name ∧ fs.files.lookup name = some content := by
  unfold read at h
  split at h
  · exact absurd h nofun
  · split at h
    · exact absurd h nofun
    · rename_i name hname
      split at h
      · rename_i found hfound
        exact ⟨name, by rw [key, hname], Except.ok.inj h ▸ hfound⟩
      · exact absurd h nofun

end FileSystem

end OpenQasm
