import DesignTokens.Settings.Basic
import DesignTokens.World

/-!
# Repositories

The repositories to scan, as the configuration declares them. An entry needs a location; its name
is by default the last segment of the location. Locations that begin like a path are directories
of this machine, all others are fetched.
-/

namespace DesignTokens

open Terminal

/-- A repository to scan. Its fields are used as they stand in the configuration. -/
structure Repository where
  location : Value
  name : Value
  /-- The team that owns it. -/
  team : Value
  branch : Value
  /-- What it is for. -/
  type : Value
  /-- The directory for the copy of a remote repository, if one is given. -/
  localPath : Value
  deriving Repr, Inhabited, BEq

namespace Repository

/-- The repository in a directory. -/
def ofDirectory (path name : String) : Repository :=
  { location := .text path
    name := .text name
    team := .text ""
    branch := .text "main"
    type := .text "website"
    localPath := .null }

/-- The last segment of a location, which must be a text. -/
def nameIn : Value → Except Failure Value
  | .text location => .ok (.text (PathText.baseName (PathText.dropTrailingSlashes location.shown)))
  | location => .error (.noMember location.kindName "rstrip")

/-- The repository that an entry declares. -/
def ofMembers (m : Members) : Except Failure Repository := do
  let location := (m.getD "location" .null).orElse (m.getD "url" .null)
  if !location.isGiven then .error (.value (.noLocation m))
  else
    let given := m.getD "name" .null
    let name ← if given.isGiven then .ok given else nameIn location
    .ok
      { location := location
        name := name
        team := m.getD "team" (.text "")
        branch := (m.getD "branch" .null).orElse (.text "main")
        type := m.getD "type" (.text "website")
        localPath := (m.getD "local_path" .null).orElse (m.getD "localPath" .null) }

/-- The repository that a value declares, which must be an object. -/
def ofValue : Value → Except Failure Repository
  | .object m => ofMembers m
  | v => .error (.noMember v.kindName "get")

/-- The beginnings of locations on this machine. -/
def localBeginnings : List String := ["/", "./", "../", "~"]

/-- Whether a location is a directory of this machine. -/
def isLocalPath (location : String) : Bool :=
  localBeginnings.any fun beginning => beginning.toList.isPrefixOf location.toList

/-- The location as a text, and whether it is a directory of this machine. -/
def place (r : Repository) : Except Failure (String × Bool) :=
  match r.location with
  | .text location => .ok (location.shown, isLocalPath location.shown)
  | location => .error (.noMember location.kindName "startswith")

/-- The fields of a repository as an object. -/
def toValue (r : Repository) : Value :=
  .object
    [ ("location", r.location), ("name", r.name), ("team", r.team), ("branch", r.branch),
      ("type", r.type), ("local_path", r.localPath) ]

/-- Whether a cause makes an entry unusable without stopping the run. -/
def isUnusable : Failure → Bool
  | .value _ | .noMember _ _ => true
  | _ => false

/-- The repository that an entry declares; an unusable entry gives a warning. -/
def ofEntry? (entry : Value) : Run (Option Repository) :=
  Run.recover isUnusable (do return some (← Run.ofExcept (ofValue entry))) fun e => do
    Run.warn (paint red ("✖ Skipping repository entry: " ++ e.message))
    pure none

/-- The repositories that entries declare, in their order, without the unusable ones. -/
def ofEntries (entries : List Value) : Run (List Repository) := do
  let found ← entries.mapM ofEntry?
  pure (found.filterMap id)

/-- The repository in a directory, named by the last segment of its path. -/
def inDirectory (workingDirectory directory : String) : Repository :=
  let path := PathText.absolute workingDirectory directory
  let name := PathText.baseName (PathText.dropTrailingSlashes path)
  ofDirectory path (if name = "" then path else name)

/-- The repositories to scan: the one in a directory if a directory is given, else those that the
settings declare, or those of them that belong to a team. -/
def select (settings : Settings) (directory team : Option String) : Run (List Repository) := do
  match directory.filter (· ≠ "") with
  | some directory => return [inDirectory (← get).workingDirectory directory]
  | none =>
    let entries ← Run.ofExcept (match team.filter (· ≠ "") with
      | some team => settings.teamRepositories team
      | none => settings.repositories)
    ofEntries (entries.map .object)

end Repository

end DesignTokens
