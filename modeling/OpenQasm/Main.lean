import OpenQasm.Cli.Respond
import OpenQasm.Include.Reachable

/-!
# The command line program

The outer layer: it reads the files that a command can reach, hands them to `Cli.respond`, and
prints and writes what that answers.
-/

namespace OpenQasm.Cli

/-- The number of an operating system's error, which some operations answer negated. -/
def errorNumber (code : UInt32) : UInt32 := if code < 0x80000000 then code else 0 - code

/-- The fault of a failed file operation. -/
def faultOf (error : IO.Error) : FileFault :=
  match error with
  | .noFileOrDirectory .. => .notFound
  | .inappropriateType _ code _ => if errorNumber code = 20 then .notADirectory else .isDirectory
  | .invalidArgument _ code _ =>
    if errorNumber code = 36 then .nameTooLong else .other (toString error)
  | .userError _ => .other "stream did not contain valid UTF-8"
  | _ => .other (toString error)

/-- What is known of the paths that were followed: each with the canonical name that it leads to,
and the contents of the files among these. -/
structure Known where
  places : List (String × Except FileFault String)
  files : List (String × String)

/-- The file system of what is known. -/
def Known.fileSystem (known : Known) : FileSystem where
  files := known.files
  locate path := (known.places.lookup path).getD (.error .notFound)

/-- Find out what a path leads to. Answers the canonical name and the content of a file. -/
def Known.visit (known : Known) (path : String) : IO (Known × Option (String × String)) := do
  let leadingTo (place : Except FileFault String) : Known :=
    { known with places := (path, place) :: known.places }
  if FileFault.ofPath? path = some .nulInName then
    return (leadingTo (.error .nulInName), none)
  match ← (IO.FS.realPath path).toBaseIO, ← (IO.FS.readFile path).toBaseIO with
  | .ok place, .ok content =>
    let name := place.toString
    return ({ leadingTo (.ok name) with files := (name, content) :: known.files },
      some (name, content))
  | .error _, .ok _ => return (leadingTo (.error .notFound), none)
  | .ok place, .error error =>
    match faultOf error with
    | .other text => return (leadingTo (.error (.other text)), none)
    | _ => return (leadingTo (.ok place.toString), none)
  | .error _, .error error => return (leadingTo (.error (faultOf error)), none)

/-- Follow a path and, unless it leads to a file on the `stack`, what that file includes. -/
partial def Known.follow (known : Known) (stack : List String) (path : String) : IO Known := do
  match ← known.visit path with
  | (known, none) => return known
  | (known, some (name, content)) =>
    if stack.contains name then return known
    else
      (Include.targetsOf path content).foldlM (fun known p => known.follow (name :: stack) p) known

/-- The file that a command starts from. -/
def Command.entry? : Command → Option String
  | .check file _ => some file
  | .run file .. => some file
  | .version => none

/-- Write the file of a response. Answers the fault if that fails. -/
def writeFile (response : Response) : IO (Option FileFault) := do
  match response.written with
  | none => return none
  | some (path, content) =>
    match ← (IO.FS.writeFile path content).toBaseIO with
    | .ok () => return none
    | .error error => return some (faultOf error)

/-- A seed that cannot be foreseen. -/
def entropy : IO Nat := do
  return (← IO.getRandomBytes 8).foldl (fun n b => 256 * n + b.toNat) 0

/-- How the program is called. -/
def usage : String :=
  "usage: check FILE [--dump-symbols]\n"
    ++ "       run FILE [--seed N] [--max-qubits N] [--show-state] [--json PATH]\n"
    ++ "       version\n"

/-- Carry out a command. -/
def carryOut (command : Command) : IO Response := do
  let known ← command.entry?.toList.foldlM (fun known p => known.follow [] p) (Known.mk [] [])
  let seed ← entropy
  let response := respond known.fileSystem (fun _ => none) seed command
  match ← writeFile response with
  | none => return response
  | some fault => return respond known.fileSystem (fun _ => some fault) seed command

end OpenQasm.Cli

open OpenQasm.Cli in
/-- The program: answer the command that the arguments write. -/
def main (arguments : List String) : IO UInt32 := do
  match Command.ofArguments? arguments with
  | none =>
    IO.eprint usage
    return 2
  | some command =>
    let response ← carryOut command
    IO.print response.stdout
    IO.eprint response.stderr
    return UInt32.ofNat response.code
