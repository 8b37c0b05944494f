import OpenQasm.Cli.Command
import OpenQasm.Report.Listing
import OpenQasm.Report.Snapshot
import OpenQasm.Run.Simulate

/-!
# Answering a command

`respond` computes everything that a command prints and writes from the contents of the file
system. An error is printed behind `error: ` and ends the command with code 1; what was printed
before it stands.

Model of the commands `check`, `run` and `version`. Out of scope: help and usage texts, and logging.
-/

namespace OpenQasm.Cli

/-- What a command prints, the file that it writes, and its exit code. -/
structure Response where
  code : Nat
  stdout : String
  stderr : String
  written : Option (String × String)
deriving DecidableEq, Repr

namespace Response

/-- A command that ends well. -/
def success (stdout : String) : Response := ⟨0, stdout, "", none⟩

/-- A command that ends with an error. -/
def failure (stdout message : String) : Response := ⟨1, stdout, "error: " ++ message ++ "\n", none⟩

end Response

/-- The version of the program. -/
def version : String := "0.1.0"

/-- The line that tells the version. -/
def versionLine : String := "qasmsim version " ++ version ++ "\n"

/-- Check a file and, if asked, list its symbols. -/
def respondCheck (fs : FileSystem) (file : String) (dumpSymbols : Bool) : Response :=
  match Program.load fs file with
  | .error e => .failure "" e.message
  | .ok program =>
    match program.check with
    | .error e => .failure "" (SimulationError.semantic e).message
    | .ok table =>
      .success (s!"{file}: ok ({program.statements.length} statements)\n"
        ++ if dumpSymbols then table.dump else "")

/-- What a run prints of the final machine. -/
def shown (m : Machine Float) (showState : Bool) : String :=
  if showState then Report.listing m
  else String.join (m.classical.map fun r => r.text ++ "\n")

/-- Run a file. `creationFault?` tells whether a file cannot be created at a path. -/
def respondRun (fs : FileSystem) (creationFault? : String → Option FileFault) (seed : Nat)
    (file : String) (maxQubits : Nat) (showState : Bool) (json : Option String) : Response :=
  match Program.load fs file with
  | .error e => .failure "" e.message
  | .ok program =>
    match program.simulate maxQubits seed with
    | .error e => .failure "" e.message
    | .ok m =>
      let output := shown m showState
      match json with
      | none => .success output
      | some path =>
        match creationFault? path with
        | some fault => .failure output (LoadError.unreadable path fault).message
        | none =>
          { Response.success (output ++ "state written to '" ++ path ++ "'\n") with
            written := some (path, Report.snapshot m) }

/-- Answer a command; `entropy` seeds a run without a seed of its own. -/
def respond (fs : FileSystem) (creationFault? : String → Option FileFault) (entropy : Nat) :
    Command → Response
  | .version => .success versionLine
  | .check file dumpSymbols => respondCheck fs file dumpSymbols
  | .run file config showState json =>
    respondRun fs creationFault? (config.seed.getD entropy) file config.maxQubits showState json

end OpenQasm.Cli
