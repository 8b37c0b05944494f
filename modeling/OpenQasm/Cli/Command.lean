import OpenQasm.Config.RunConfig

/-!
# Command lines

```
check FILE [--dump-symbols]
run FILE [--seed N] [--max-qubits N] [--show-state] [--json PATH]
version
```

Options may stand before or after the file, the value of an option behind an equals sign or in
the next argument. `--verbose` is accepted everywhere and changes no output.

Model of the arguments that make up a command. Out of scope: help, shortened options, and arguments
that make up none, whose messages are those of the library that reads them.
-/

namespace OpenQasm.Cli

/-- What the program is asked to do. -/
inductive Command where
  | check (file : String) (dumpSymbols : Bool)
  | run (file : String) (config : RunConfig) (showState : Bool) (json : Option String)
  | version
deriving DecidableEq, Repr

/-- The options given so far. -/
structure Options where
  file : Option String
  dumpSymbols : Bool
  showState : Bool
  json : Option String
  config : RunConfig

/-- No options. -/
def Options.none : Options := ⟨.none, false, false, .none, .default⟩

/-- A natural number below `2 ^ 64`. -/
def natural? (text : String) : Option Nat :=
  let digits := match text.toList with
    | '+' :: rest => rest
    | all => all
  if digits.isEmpty then .none else RunConfig.natural? digits

/-- Take over the value of an option. -/
def Options.set? (o : Options) (name value : String) : Option Options :=
  match name with
  | "--seed" =>
    (natural? value).map fun n => { o with config := { o.config with seed := some n } }
  | "--max-qubits" =>
    (natural? value).map fun n => { o with config := { o.config with maxQubits := n } }
  | "--json" => some { o with json := some value }
  | _ => .none

/-- Take over the one file. -/
def Options.setFile? (o : Options) (file : String) : Option Options :=
  if o.file.isSome then .none else some { o with file := some file }

/-- The name and the value of an option written with an equals sign. -/
def splitEqual? (argument : String) : Option (String × String) :=
  let name := argument.toList.takeWhile (· != '=')
  match argument.toList.drop name.length with
  | _ :: value => some (String.ofList name, String.ofList value)
  | [] => .none

/-- Whether an argument is an option. -/
def isOption (argument : String) : Bool :=
  match argument.toList with
  | '-' :: _ :: _ => true
  | _ => false

/-- Read the arguments of a subcommand. -/
def readOptions (o : Options) : List String → Option Options
  | [] => some o
  | "--verbose" :: rest => readOptions o rest
  | "--dump-symbols" :: rest => readOptions { o with dumpSymbols := true } rest
  | "--show-state" :: rest => readOptions { o with showState := true } rest
  | "--" :: rest => rest.foldlM Options.setFile? o
  | argument :: rest =>
    if isOption argument then
      match splitEqual? argument with
      | some (name, value) =>
        match o.set? name value with
        | some o => readOptions o rest
        | .none => .none
      | .none =>
        match rest with
        | value :: more =>
          match o.set? argument value with
          | some o => readOptions o more
          | .none => .none
        | [] => .none
    else
      match o.setFile? argument with
      | some o => readOptions o rest
      | .none => .none

/-- The command that arguments write. -/
def Command.ofArguments? : List String → Option Command
  | "--verbose" :: rest => ofArguments? rest
  | "version" :: _ => some .version
  | "check" :: rest => do
    let o ← readOptions .none rest
    return .check (← o.file) o.dumpSymbols
  | "run" :: rest => do
    let o ← readOptions .none rest
    return .run (← o.file) o.config o.showState o.json
  | _ => .none

end OpenQasm.Cli
