import DesignTokens.Repository
import DesignTokens.World

/-!
# Working copies

How the files of a repository come to be on this machine. A local repository is used where it is.
A remote one is copied into a directory of its own, or brought up to date if a copy is there
already; whatever goes wrong with that makes the repository unprepared.
-/

namespace DesignTokens

open Terminal

variable [Nesting.Room]

namespace Checkout

/-- Whether a cause makes a remote repository unprepared: a failed command of the version control
system or of the file system, or something missing in an answer. -/
def isSetback : Failure → Bool
  | .git .attribute _ => true
  | e => e.isGitOrFile

/-- Puts the files of a copy under its directory, each after the directories above it. The version
control system does this, and has room for all levels that a path can have. -/
def putCopy (directory : String) (files : ClonedFiles) : Run Unit :=
  files.forM fun file => do
    let path := PathText.append directory file.1
    let levels := path.length + 1
    match file.2 with
    | some content =>
      Run.makeDirectoriesFrom levels (PathText.parent path)
      Run.writeBytes path content
    | none => Run.makeDirectoriesFrom levels path

/-- Copies a remote repository to a directory. -/
def clone (url destination : String) (branch : Value) : Run Unit := do
  let w ← get
  let call := GitCall.clone url destination branch
  set { w with calls := w.calls ++ [call] }
  match w.git.cloned w.calls url with
  | .error f => throw f.cause
  | .ok files => putCopy destination files

/-- Asks whether the open repository has a remote to fetch from. -/
def requireOrigin : Run Unit := do
  let w ← get
  match w.git.origin w.calls with
  | .ok _ => pure ()
  | .error f => throw f.cause

/-- Brings a copy up to date with a branch. -/
def update (directory : String) (branch : Value) : Run Unit := do
  discard (Run.ask (.opened (.text directory)))
  requireOrigin
  discard (Run.ask .fetch)
  discard (Run.ask (.checkout branch))
  requireOrigin
  discard (Run.ask .pull)

/-- The directory for the copy of a remote repository: its own if one is given, else one with its
name among the copies. -/
def directoryFor (copies : Value) (r : Repository) : Except Failure String :=
  if r.localPath.isGiven then
    match r.localPath with
    | .text path => .ok path.shown
    | _ => .error .wrongKind
  else
    match copies, r.name with
    | .text copies, .text name => .ok (PathText.append copies.shown name.shown)
    | _, _ => .error .wrongKind

/-- Copies a remote repository or brings its copy up to date. -/
def fetch (directory url : String) (r : Repository) : Run Unit := do
  let w ← get
  if w.isDirectory (PathText.append directory ".git") then
    Run.say (paint grey ("📥 Updating existing repository: " ++ r.name.displayString))
    update directory r.branch
  else
    Run.say (paint grey ("📥 Cloning repository: " ++ r.name.displayString))
    Run.makeDirectories .copies (PathText.parent (PathText.absolute w.workingDirectory directory))
    clone url directory r.branch

/-- The directory of a remote repository, after it has been copied or brought up to date. -/
def prepareRemote (copies : Value) (url : String) (r : Repository) : Run String := do
  let directory ← Run.ofExcept (directoryFor copies r)
  Run.recover isSetback (fetch directory url r) fun e =>
    throw (.unprepared r.name.displayString e.message)
  pure directory

/-- The directory of a local repository. -/
def prepareLocal (location : String) (r : Repository) : Run String := do
  let w ← get
  let path := w.expandHome location
  if w.isDirectory path then
    Run.say (paint grey
      ("📂 Using local repository: " ++ r.name.displayString ++ " at " ++ location))
    pure path
  else throw (.root (.localAbsent location))

/-- The directory of a repository, with its files in it. -/
def prepare (copies : Value) (r : Repository) : Run String := do
  let (location, isLocal) ← Run.ofExcept r.place
  if isLocal then prepareLocal location r else prepareRemote copies location r

end Checkout

end DesignTokens
