import DesignTokens.Settings.Basic
import DesignTokens.World

/-!
# The configuration file

Where the configuration file is and how it is read. A file that does not exist is an empty
configuration; a file that is no JSON object is refused.
-/

namespace DesignTokens.Settings

variable [Nesting.Room]

/-- The path of the configuration file: the one given, else the one in the environment, else the
one in the working directory. Empty paths do not count. -/
def pathFor (w : World) (given : Option String) : String :=
  match given.filter (· ≠ ""), w.configVariable.filter (· ≠ "") with
  | some path, _ => path
  | none, some path => path
  | none, none => PathText.append w.workingDirectory ".token-scanner-config.json"

/-- The configuration in a document with a path. -/
def ofDocument (path : String) (document : List Char) : Except Failure Settings :=
  match Value.parse document with
  | .ok (.object members) => .ok ⟨members⟩
  | .ok _ => .error (.settings (.notObject path))
  | .error (.malformed complaint position) =>
    .error (.settings (.malformed path document complaint position))
  | .error (.tooLong digits) => .error (.value (.tooManyDigits digits))
  | .error (.tooDeep innermost) => .error (.tooDeep innermost)

/-- Reads the text of a configuration file; a refusal of the file system is a fault of the
configuration. -/
def readDocument (path : String) : Run String :=
  tryCatch (Run.readText path) fun
    | .file error => throw (.settings (.unreadable path error))
    | e => throw e

/-- Reads the configuration. -/
def load (given : Option String) : Run Settings := do
  let w ← get
  let path := pathFor w given
  if w.pathExists path then
    let document ← readDocument path
    Run.ofExcept (ofDocument path document.toList)
  else pure ⟨[]⟩

end DesignTokens.Settings
