import OpenQasm.Include.Expand

/-!
# What a text can include

Before a program is loaded, the files that it can reach have to be read. `Include.targetsOf` lists
the paths that a text asks for directly; following them until nothing new turns up gives every
file that loading may need.

This belongs to no part of the simulator, which reads a file when it comes to its include.
-/

namespace OpenQasm.Include

/-- The paths that a text read from `path` includes, the bundled library left out. A text that
cannot be read as a program includes nothing. -/
def targetsOf (path content : String) : List String :=
  match Program.fragmentOfText path content with
  | .error _ => []
  | .ok program =>
    (program.includes.filter fun i => i.path != StandardGates.fileName).map
      (target (Path.parent? path))

end OpenQasm.Include
