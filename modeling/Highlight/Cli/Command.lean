/-!
# Commands

What the command line asks for, and how its arguments say so.
-/

namespace Highlight.Cli

/-- A file to be read, and how. -/
structure Target where
  path : String
  /-- The selector of the language; without one the extension of the path is taken. -/
  selector? : Option String := none
  strict : Bool := false
  deriving DecidableEq, Repr

inductive Command where
  /-- List the tokens of a file. -/
  | tokens (target : Target) (coalescing : Bool)
  /-- Say whether a file can be read to its end. -/
  | check (target : Target)
  /-- List the languages. -/
  | langs
  deriving DecidableEq, Repr

structure Arguments where
  path? : Option String := none
  selector? : Option String := none
  strict : Bool := false
  coalescing : Bool := false
  deriving DecidableEq, Repr

namespace Arguments

/-- The value written in one argument with a short option, with or without an equals sign. -/
def attachedValue (s : List Char) : String :=
  match s with
  | '=' :: s => String.ofList s
  | s => String.ofList s

/-- Takes the selector, which may be given once. -/
def setSelector (selector : String) (arguments : Arguments) : Option Arguments :=
  if arguments.selector?.isSome then none else some { arguments with selector? := some selector }

def setPath (path : String) (arguments : Arguments) : Option Arguments :=
  if arguments.path?.isSome then none else some { arguments with path? := some path }

def isOption (argument : String) : Bool :=
  match argument.toList with
  | '-' :: _ :: _ => true
  | _ => false

/-- Reads arguments. `coalesces` says whether the command can merge tokens. -/
def read (coalesces : Bool) (arguments : Arguments) : List String → Option Arguments
  | [] => some arguments
  | "--" :: rest => rest.foldlM (fun arguments path ↦ arguments.setPath path) arguments
  | "--lang" :: value :: rest | "-l" :: value :: rest =>
    if isOption value then none else arguments.setSelector value >>= (read coalesces · rest)
  | argument :: rest =>
    if argument = "--strict" then
      if arguments.strict then none else read coalesces { arguments with strict := true } rest
    else if argument = "--coalesce" then
      if !coalesces || arguments.coalescing then none
      else read coalesces { arguments with coalescing := true } rest
    else if argument = "--lang" ∨ argument = "-l" then none
    else if argument.startsWith "--lang=" then
      arguments.setSelector (String.ofList (argument.toList.drop 7)) >>= (read coalesces · rest)
    else if argument.startsWith "-l" then
      arguments.setSelector (attachedValue (argument.toList.drop 2)) >>= (read coalesces · rest)
    else if isOption argument then none
    else arguments.setPath argument >>= (read coalesces · rest)

def target? (arguments : Arguments) : Option Target := do
  let path ← arguments.path?
  return { path, selector? := arguments.selector?, strict := arguments.strict }

end Arguments

/-- The command that the arguments give, if they are right. -/
def Command.ofArguments? : List String → Option Command
  | ["langs"] => some .langs
  | "tokens" :: rest => do
    let arguments ← Arguments.read true {} rest
    return .tokens (← arguments.target?) arguments.coalescing
  | "check" :: rest => do
    let arguments ← Arguments.read false {} rest
    return .check (← arguments.target?)
  | _ => none

end Highlight.Cli
