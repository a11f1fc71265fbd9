import DesignTokens.History.Commit
import DesignTokens.History.Pointer

/-!
# Detection of changes in a repository

A detector reports the commits after the last processed one, or those of a span of time, with the
token changes in the files they modify. After a report that is not empty the last processed commit
is the one checked out. Failed commands give warnings and empty reports.
-/

namespace DesignTokens

open Terminal

variable [Nesting.Room]

/-- A span of time to look back. -/
inductive Lookback
  | hours (count : Int)
  /-- A span without a count of hours. -/
  | nothing
  deriving DecidableEq, Repr, Inhabited

/-- The count of hours in words. -/
def Lookback.text : Lookback → String
  | .hours count => toString count
  | .nothing => "[]"

/-- What a detector watches and remembers. -/
structure Detector where
  /-- The working tree of the repository. -/
  path : Value
  store : PointerStore
  /-- The hours to look back while no commit has been processed. -/
  lookbackHours : Int
  /-- How far a replacement may be from the definition it replaces. -/
  lookahead : Int
  /-- The last processed commit. -/
  pointer : Option String
  deriving Repr, Inhabited

/-- A computation on a detector and a world that may stop with a cause; what it did to either of
them before it stopped stays done. -/
abbrev Detection := RunOn (Detector × World)

namespace Detection

/-- A run as a detection that leaves the detector as it is. -/
def ofRun {α : Type} (x : Run α) : Detection α :=
  ExceptT.mk fun s =>
    let (answer, w) := x.run.run s.2
    (answer, s.1, w)

/-- The detector as it is now. -/
def detector : Detection Detector := do return (← get).1

/-- Puts another detector in place. -/
def put (d : Detector) : Detection Unit := modify fun s => (d, s.2)

/-- A detection as a run from a given detector; its answer comes with the detector it leaves. -/
def startingAt {α : Type} (d : Detector) (x : Detection α) : Run (α × Detector) :=
  ExceptT.mk fun w =>
    let (answer, d, w) := x.run.run (d, w)
    (answer.map fun a => (a, d), w)

end Detection

namespace Detector

/-- The hours to look back where nothing else is said. -/
def defaultLookback : Int := 24

/-- A hash that is not empty. -/
def given : Option String → Option String
  | some "" => none
  | hash => hash

/-- A detector that begins with the commit in its store. -/
def start (path : Value) (store : PointerStore) (lookbackHours lookahead : Int) :
    Run Detector := do
  let pointer ← store.load
  match given pointer with
  | some hash => Run.say (paint grey ("📋 Last processed commit: " ++ hash))
  | none => Run.say (paint grey "📋 No previous scan found, will detect recent changes")
  pure ⟨path, store, lookbackHours, lookahead, pointer⟩

/-- Whether a path leads to something. A number of 32 bits stands for an open channel, of which
there are three. -/
def pathExists (w : World) : Value → Except Failure Bool
  | .text path => .ok (path.plain?.any w.pathExists)
  | .int n =>
    if 0x7FFFFFFF < n then .error (.overflow "fd is greater than maximum")
    else if n < -0x80000000 then .error (.overflow "fd is less than minimum")
    else .ok (0 ≤ n && n ≤ 2)
  | .bool _ => .ok true
  | _ => .error .wrongKind

/-- Whether a cause says that there is no repository. -/
def isNoRepository : Failure → Bool
  | .git .invalidRepository _ | .git .noSuchPath _ => true
  | _ => false

/-- Opens the repository; the answer is `false`, after a warning, if there is none. -/
def openRepository (d : Detector) : Run Bool := do
  let w ← get
  if ← Run.ofExcept (pathExists w d.path) then
    Run.recover isNoRepository (do discard (Run.ask (.opened d.path)); pure true) fun _ => do
      Run.warn (paint yellow ("⚠️  Not a valid Git repository: " ++ d.path.displayString))
      pure false
  else
    Run.warn (paint yellow ("⚠️  Design system path not found: " ++ d.path.displayString))
    pure false

/-- The commit that is checked out, if there is one. -/
def latestCommit : Run (Option String) :=
  Run.recover Failure.isGit (do return PointerStore.hashIn (← Run.ask .head)) fun e => do
    Run.warn (paint red ("✖ Error getting latest commit: " ++ e.message))
    pure none

/-- What a commit changes in a file; nothing, after a warning, if the command fails. -/
def diffOf (hash file : String) : Run String :=
  Run.recover Failure.isGit (Run.ask (.diffOf hash file)) fun e => do
    Run.warn (paint red ("✖ Error getting diff for " ++ file ++ ": " ++ e.message))
    pure ""

/-- The status and the path in a line about a file, if the file defines tokens. -/
def touched? (line : List Char) : Option (List Char × String) :=
  match Text.splitOn '\t' line with
  | status :: next :: more =>
    let path := String.ofList ((next :: more).getLast?.getD next)
    if TokenFile.isTokenFile path then some (status, path) else none
  | _ => none

/-- The change that a line about a file tells; the diff of a modified file is read. -/
def fileChange (lookahead : Int) (hash : String) (status : List Char) (path : String) :
    Run FileChange := do
  match FileChangeKind.ofStatus status with
  | .modified =>
    let diff ← diffOf hash path
    let changes ← Run.ofExcept (TokenChange.ofDiff diff lookahead)
    pure ⟨.modified, path, some diff, some changes⟩
  | kind => pure ⟨kind, path, none, none⟩

/-- The token files that a commit touches; none, after a warning, if the command fails. -/
def changesOf (lookahead : Int) (hash : String) : Run (List FileChange) := do
  let listed ← Run.recover Failure.isGit
    (do return some (← Run.ask (.filesOf hash))) fun e => do
      Run.warn (paint red ("✖ Error getting changes for commit " ++ hash ++ ": " ++ e.message))
      pure none
  match listed with
  | none => pure []
  | some text =>
    ((Text.splitLines (Text.trim text.toList)).filterMap touched?).mapM fun t =>
      fileChange lookahead hash t.1 t.2

/-- The fields of a commit in a line of the log: hash, author, date, and the rest as message. -/
def logLine? (line : List Char) : Option (String × String × String × String) :=
  match Text.splitFirst '|' 3 line with
  | [hash, author, date, message] =>
    some (String.ofList hash, String.ofList author, String.ofList date, String.ofList message)
  | _ => none

/-- The commit with the fields of a line of the log. -/
def commitOf (lookahead : Int) : String × String × String × String → Run Commit
  | (hash, author, date, message) => do
    pure ⟨hash, author, date, message, ← changesOf lookahead hash⟩

/-- The commits of a range or of a span of time; none, after a warning, if the command fails. -/
def commits (d : Detector) (range since : Option String) : Run (List Commit) := do
  let listed ← Run.recover Failure.isGit
    (do return some (← Run.ask (.log range since))) fun e => do
      Run.warn (paint red ("✖ Error getting commits: " ++ e.message))
      pure none
  match listed with
  | none => pure []
  | some text =>
    ((Text.splitLines (Text.trim text.toList)).filterMap logLine?).mapM (commitOf d.lookahead)

/-- The beginning of a span of time. -/
def since (span : Lookback) : String := span.text ++ " hours ago"

/-- The commits since the last processed one in an open repository, given the one that is checked
out. -/
def commitsUpTo (d : Detector) (latest : String) : Run (List Commit) :=
  match given d.pointer with
  | none => do
    Run.say (paint grey ("🔍 Getting changes from last " ++ toString d.lookbackHours ++
      " hours (first scan)"))
    d.commits none (some (since (.hours d.lookbackHours)))
  | some pointer => do
    if pointer = latest then
      Run.say (paint green "✅ No new commits since last scan")
      pure []
    else
      Run.say (paint grey ("🔍 Getting changes between " ++ pointer ++ " and " ++ latest))
      d.commits (some (pointer ++ ".." ++ latest)) none

/-- Remembers a commit as the last processed one, first in the store and then in the detector. -/
def advance (hash : String) : Detection Unit := do
  let d ← Detection.detector
  let store ← Detection.ofRun (d.store.save hash)
  Detection.put { d with store := store }
  Detection.put { d with store := store, pointer := some hash }
  Detection.ofRun (Run.say (paint grey ("💾 Saved last processed commit: " ++ hash)))

/-- A report, or none, after a warning, if a command or an operation on a file fails in it. -/
def reporting (what : String) (body : Detection (List Commit)) : Detection (List Commit) :=
  Run.recover Failure.isGitOrFile body fun e => do
    Detection.ofRun (Run.warn (paint red ("✖ Error getting " ++ what ++ ": " ++ e.message)))
    pure []

/-- Reports the commits up to the one checked out, if there is one; if there are new ones, it
becomes the last processed one. -/
def reportUpTo (d : Detector) : Option String → Detection (List Commit)
  | none => do
    Detection.ofRun (Run.warn (paint yellow ("⚠️  No commits found in " ++ d.path.displayString)))
    pure []
  | some latest => do
    let found ← Detection.ofRun (d.commitsUpTo latest)
    if found.isEmpty then pure found
    else
      advance latest
      pure found

/-- Looks for the commits since the last processed one. -/
def scanSinceLast : Detection (List Commit) := do
  let d ← Detection.detector
  if ← Detection.ofRun d.openRepository then d.reportUpTo (← Detection.ofRun latestCommit)
  else pure []

/-- Looks for the commits of a span of time. -/
def scanRecent (span : Lookback) : Detection (List Commit) := do
  let d ← Detection.detector
  if ← Detection.ofRun d.openRepository then
    Detection.ofRun (Run.say
      (paint grey ("🔍 Getting changes from last " ++ span.text ++ " hours")))
    Detection.ofRun (d.commits none (some (since span)))
  else pure []

/-- Reports the commits since the last processed one. -/
def detectSinceLast : Detection (List Commit) :=
  reporting "changes since last scan" scanSinceLast

/-- Reports the commits of a span of time. -/
def detectRecent (span : Lookback) : Detection (List Commit) :=
  reporting "recent changes" (scanRecent span)

/-- The commits since the last processed one and the detector that has processed them. -/
def changesSinceLast (d : Detector) : Run (List Commit × Detector) :=
  Detection.startingAt d detectSinceLast

/-- The commits of a span of time. -/
def recentChanges (d : Detector) (span : Lookback) : Run (List Commit) := do
  return (← Detection.startingAt d (detectRecent span)).1

end Detector

end DesignTokens
