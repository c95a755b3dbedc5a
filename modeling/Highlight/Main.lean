import Highlight.Cli.Run
import Highlight.Text.Unicode

/-!
# The command line

Reads the arguments, runs the command on the files of the system and writes what it leaves behind.
-/

namespace Highlight.Cli

/-- The number by which the system reports that a file is a directory. -/
def directoryErrorCode : UInt32 := 21

def readFile (path : String) : IO FileContent := do
  try
    return FileContent.ofBytes (← IO.FS.readBinFile path)
  catch error =>
    match error with
    | .noFileOrDirectory .. => return .missing
    | .inappropriateType _ code _ =>
      return if code = directoryErrorCode then .unreadable "Is a directory (os error 21)" else .missing
    | error => return .unreadable (toString error)

/-- The path of the file that a command reads. -/
def Command.path? : Command → Option String
  | .tokens target _ | .check target => some target.path
  | .langs => none

def usage : String :=
  "usage: (tokens [--coalesce] | check) PATH [--lang L] [--strict] | langs\n"

def usageCode : UInt32 := 2

end Highlight.Cli

open Highlight.Cli

def main (arguments : List String) : IO UInt32 := do
  match Command.ofArguments? arguments with
  | none =>
    (← IO.getStderr).putStr usage
    return usageCode
  | some command =>
    let content ← match command.path? with
      | some path => readFile path
      | none => pure .missing
    let output := command.run fun _ ↦ content
    (← IO.getStdout).putStr output.stdout
    (← IO.getStderr).putStr output.stderr
    return UInt32.ofNat output.code
