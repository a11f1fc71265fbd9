import DesignTokens.Files.Tree
import DesignTokens.Git
import DesignTokens.Terminal.Color
import DesignTokens.Timestamp
import DesignTokens.Value.Printer

/-!
# The world of a run

What a run reads and changes: files, the answers of the version control system, the clock, the
environment, and what has been printed. A run is a function on worlds that may stop with a cause;
what it did before it stopped stays done. Standard output and standard error are taken to be able to
write every text, so what is printed never stops a run.
-/

namespace DesignTokens

/-- What a run depends on and changes. -/
structure World where
  files : FileTree
  /-- The working directory as a path; relative paths start there. -/
  workingDirectory : String
  /-- The home directory of the user. -/
  home : String
  /-- The home directories of users by name. -/
  homes : List (String × String)
  /-- The path of the configuration given by the environment. -/
  configVariable : Option String
  /-- The path of the design system given by the environment. -/
  designSystemVariable : Option String
  now : Timestamp
  /-- How long a scan takes by the clock, in thousandths of a second. -/
  scanMilliseconds : Nat
  git : GitService
  /-- Whether progress is shown. -/
  verbose : Bool
  /-- The commands of the version control system issued so far, the latest last. -/
  calls : List GitCall
  /-- The lines printed so far. -/
  output : List String
  /-- The warnings printed so far. -/
  warnings : List String

/-- A computation on a state that may stop with a cause. -/
abbrev RunOn (σ : Type) := ExceptT Failure (StateM σ)

/-- A computation on a world that may stop with a cause. -/
abbrev Run := RunOn World

namespace World

/-- The location of the working directory. -/
def directory (w : World) : Location := PathText.plainSegments w.workingDirectory

/-- Whether a path leads to something. -/
def pathExists (w : World) (path : String) : Bool := w.files.pathExists w.directory path

/-- Whether a path leads to a directory. -/
def isDirectory (w : World) (path : String) : Bool := w.files.isDirectory w.directory path

/-- The path from the root that leads where a path leads, without links to follow. -/
def realPath (w : World) (path : String) : String :=
  let names := PathText.segments (PathText.append w.workingDirectory path)
  "/" ++ PathText.join (names.foldl (PathText.step true) []).reverse

/-- The home directory of the user with a name, or of the user of the run if the name is empty. -/
def homeOf? (w : World) (name : String) : Option String :=
  if name = "" then some w.home else w.homes.lookup name

/-- A path with a home directory in place of a tilde at its beginning and the name after it; with
the name of an unknown user it stays as it is. -/
def expandHome (w : World) (path : String) : String :=
  match path.toList with
  | '~' :: rest =>
    let name := rest.takeWhile (· ≠ '/')
    match w.homeOf? (String.ofList name) with
    | some home =>
      let full := PathText.dropTrailingSlashes home ++ String.ofList (rest.drop name.length)
      if full = "" then "/" else full
    | none => path
  | _ => path

/-- The text of a file, with line feeds for all its newlines. -/
def textOf (w : World) (path : String) : Except Failure String :=
  match w.files.read w.directory path with
  | .error e => .error (.file e)
  | .ok bytes =>
    match Text.Utf8.decode bytes with
    | .error fault => .error (.notUtf8 fault)
    | .ok text => .ok (String.ofList (Text.unifyNewlines text))

/-- Everything printed, each line with its end. -/
def outputText (w : World) : String := String.join (w.output.map (· ++ "\n"))

/-- All warnings, each line with its end. -/
def warningText (w : World) : String := String.join (w.warnings.map (· ++ "\n"))

end World

namespace Run

/-- Prints a line. -/
def print (line : String) : Run Unit :=
  modify fun w => { w with output := w.output ++ [line] }

/-- Prints a line if progress is shown. -/
def say (line : String) : Run Unit :=
  modify fun w => if w.verbose then { w with output := w.output ++ [line] } else w

/-- Prints a warning. -/
def warn (line : String) : Run Unit :=
  modify fun w => { w with warnings := w.warnings ++ [line] }

/-- The answer or the failure of a part without effects. -/
def ofExcept {α : Type} : Except Failure α → Run α
  | .ok a => pure a
  | .error e => throw e

/-- Goes on with `handle` after a failure that satisfies `p`. -/
def recover {σ α : Type} (p : Failure → Bool) (body : RunOn σ α)
    (handle : Failure → RunOn σ α) : RunOn σ α :=
  tryCatch body fun e => if p e then handle e else throw e

/-- Prints a document, unless it holds a whole number that cannot be written. -/
def printDocument (v : Value) : Run Unit :=
  match v.cut? with
  | none => print v.written
  | some _ => throw (.value .unwritable)

/-- Issues a command of the version control system and waits for its answer. -/
def ask (call : GitCall) : Run String := do
  let w ← get
  set { w with calls := w.calls ++ [call] }
  match w.git.answer w.calls call with
  | .ok text => pure text
  | .error f => throw f.cause

/-- The text of a file, with line feeds for all its newlines. -/
def readText (path : String) : Run String := do
  ofExcept ((← get).textOf path)

/-- Whether a path leads to something; one that is too long is refused. -/
def findPath (path : String) : Run Bool := do
  let w ← get
  match w.files.locate w.directory path with
  | .ok _ => pure true
  | .error .nameTooLong => throw (.file ⟨.nameTooLong, path⟩)
  | .error _ => pure false

/-- Refuses a path with the character that no path can have. -/
def requirePath (path : String) : Run Unit :=
  if path.toList.any (·.toNat == 0) then throw (.value .nulInPath) else pure ()

/-- Writes bytes to a file. -/
def writeBytes (path : String) (content : List UInt8) : Run Unit := do
  requirePath path
  let w ← get
  match w.files.write w.directory path content with
  | .error e => throw (.file e)
  | .ok files => set { w with files := files }

/-- Writes a text to a file. -/
def writeText (path text : String) : Run Unit :=
  writeBytes path (Text.Utf8.encode text.toList)

/-- Writes a document to a file, as far as it can be written. -/
def writeDocument (path : String) (v : Value) : Run Unit :=
  match v.cut? with
  | none => writeText path v.written
  | some before => do
    writeText path before
    throw (.value .unwritable)

/-- Makes a directory; an existing one is accepted if `existing` says so. -/
def makeDirectory (path : String) (existing : Bool) : Run Unit := do
  requirePath path
  let w ← get
  match w.files.makeDirectory w.directory path with
  | .ok files => set { w with files := files }
  | .error e =>
    if existing && w.isDirectory path then pure () else throw (.file e)

/-- Makes a directory after those above it that are missing, the uppermost first. The path is cut
at its last slash to find the directory above; at most `levels` directories are made. -/
def makeDirectoriesFrom : Nat → String → Run Unit
  | 0, _ => throw (.tooDeep .directories)
  | levels + 1, path => do
    let cut (p : String) : String × String := (PathText.parent p, PathText.baseName p)
    let parts := if (cut path).2 = "" then cut (cut path).1 else cut path
    let w ← get
    if parts.1 ≠ "" && parts.2 ≠ "" && !w.pathExists parts.1 then
      recover
        (fun e => match e with
          | .file e => e.fault == .alreadyThere
          | _ => false)
        (makeDirectoriesFrom levels parts.1) fun _ => pure ()
      if parts.2 = "." then pure () else makeDirectory path true
    else makeDirectory path true

/-- Makes a directory and those above it, where they are missing, as far as there is room at a
place. -/
def makeDirectories [Nesting.Room] (site : Nesting.Site) (path : String) : Run Unit :=
  makeDirectoriesFrom site.limit path

/-- Makes a directory with a path as a document spells it, and tells the path. A directory with
halves of pairs in its name cannot be made, but those above it are made before that turns out. -/
def makeSpelledDirectories [Nesting.Room] (site : Nesting.Site) (path : Spelling) :
    Run String :=
  match path.halves? with
  | none => do
    makeDirectories site path.start
    pure path.start
  | some halves => do
    let above := PathText.parent path.start
    if above ≠ "" && !(← get).pathExists above then makeDirectories site above
    throw (.noBytes halves)

end Run

end DesignTokens
