/-!
# Steps that change a state in place

What changes a state step by step and may stop in the middle. A program of this kind that stops
with an error leaves the state as it is then, with everything that was changed before: nothing is
rolled back. `consult` is a step that only looks.
-/

namespace OpenQasm

/-- Steps that change a state of type `σ`, up to an error. -/
abbrev Steps (ε σ α : Type) := EStateM ε σ α

namespace Steps

variable {ε δ σ τ α : Type}

/-- Look at the state, and stop if there is an error. -/
def consult (look : σ → Except ε α) : Steps ε σ α := fun s =>
  match look s with
  | .ok a => .ok a s
  | .error e => .error e s

/-- Steps on a part of the state, with the errors that they stand for around it. -/
def onPart (part : σ → τ) (replace : σ → τ → σ) (wrap : δ → ε) (p : Steps δ τ α) :
    Steps ε σ α := fun s =>
  match p (part s) with
  | .ok a after => .ok a (replace s after)
  | .error e after => .error (wrap e) (replace s after)

/-- Change the error that the steps stop with. -/
def mapError (f : ε → δ) (p : Steps ε σ α) : Steps δ σ α := onPart id (fun _ s => s) f p

end Steps

end OpenQasm
