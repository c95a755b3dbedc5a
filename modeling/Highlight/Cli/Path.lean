/-!
# Paths

The parts of a path, the name of the file and its extension.
-/

namespace Highlight.Cli.Path

def parts (path : String) : List String := path.splitOn "/"

/-- The name of the file that a path leads to: the last part that is neither empty nor the directory
itself. A path to a parent directory names no file. -/
def fileName? (path : String) : Option String := do
  let name ← ((parts path).filter fun part ↦ part != "" && part != ".").getLast?
  if name == ".." then none else some name

/-- What stands behind the last point of a name, unless that is its first character. -/
def extensionOf? (name : List Char) : Option (List Char) :=
  let extension := (name.reverse.takeWhile (· != '.')).reverse
  if extension.length + 1 < name.length then some extension else none

def extension? (path : String) : Option String := do
  let name ← fileName? path
  let extension ← extensionOf? name.toList
  return String.ofList extension

end Highlight.Cli.Path
