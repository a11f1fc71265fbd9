import DesignTokens.Failure

/-!
# Commands of the version control system

The commands that are issued, as data, and the answers to them as a function of the commands
issued before. An answer may therefore differ from one call to the next in any way, and a run is
determined by the answers alone.
-/

namespace DesignTokens

/-- A command of the version control system. -/
inductive GitCall
  /-- Opens the repository at a path. -/
  | opened (path : Value)
  /-- Asks for the commit that is checked out. -/
  | head
  /-- Asks for the commits of a range or of a span of time. -/
  | log (range : Option String) (since : Option String)
  /-- Asks for the files that a commit touches. -/
  | filesOf (hash : String)
  /-- Asks for what a commit changes in a file. -/
  | diffOf (hash file : String)
  | fetch
  | checkout (branch : Value)
  | pull
  /-- Copies a remote repository to a path. -/
  | clone (url destination : String) (branch : Value)
  deriving Repr, BEq, Inhabited

/-- How a command fails, in words. -/
structure GitFailure where
  fault : GitFault
  text : String
  deriving DecidableEq, Repr

/-- The cause that a failed command is. -/
def GitFailure.cause (f : GitFailure) : Failure := .git f.fault f.text

/-- The files and directories that a clone brings, by their path in it; a directory has no
content. -/
abbrev ClonedFiles := List (String × Option (List UInt8))

/-- The answers of the version control system, given the commands issued before, the latest
last. -/
structure GitService where
  /-- What a command prints. -/
  answer : List GitCall → GitCall → Except GitFailure String
  /-- Whether the open repository has a remote to fetch from. -/
  origin : List GitCall → Except GitFailure Unit
  /-- What the copy of a remote repository holds. -/
  cloned : List GitCall → String → Except GitFailure ClonedFiles

instance : Inhabited GitService :=
  ⟨⟨fun _ _ => .ok "", fun _ => .ok (), fun _ _ => .ok []⟩⟩

end DesignTokens
