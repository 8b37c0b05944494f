import OpenQasm.Include.Expand
import OpenQasm.Random.ChaCha
import OpenQasm.Run.Executor
import OpenQasm.Scope.Check

/-!
# Simulating a program

The stages put together: a program is loaded, checked, and executed over doubles with the draws of
a seed. `SimulationError` names the stage that failed.

Model of a whole run with a seed. Out of scope: runs without one.
-/

namespace OpenQasm

/-- Why a simulation fails, by stage. -/
inductive SimulationError where
  | load (error : LoadError)
  | semantic (error : SemanticError)
  | runtime (error : RunError)
deriving DecidableEq, Repr

/-- The text of an error, with the kind of error in front. -/
def SimulationError.message : SimulationError → String
  | load error => error.message
  | semantic error => "semantic error " ++ error.message
  | runtime error => "runtime error " ++ error.message

namespace Program

/-- Execute a program over doubles with the draws of a seed. -/
def executeSeeded (p : Program) (maxQubits seed : Nat) : Except RunError (Machine Float) :=
  p.execute maxQubits (Random.draw (UInt64.ofNat seed))

/-- Check a program and execute it with the draws of a seed. -/
def simulate (p : Program) (maxQubits seed : Nat) : Except SimulationError (Machine Float) := do
  discard (p.check.mapError .semantic)
  (p.executeSeeded maxQubits seed).mapError .runtime

end Program

end OpenQasm
