import DesignTokens.CommandLine.Help
import DesignTokens.CommandLine.Options
import DesignTokens.History.Overview
import DesignTokens.Report.Files
import DesignTokens.Report.Overview
import DesignTokens.Scan.Scanner
import DesignTokens.Settings.Document

/-!
# The program

What a call of the program does: it reads its arguments and the configuration, and then either
detects token changes in the history of the design system or scans repositories and reports on
them. A fault of the configuration is told and ends the call.
-/

namespace DesignTokens.CommandLine

open Terminal

variable [Nesting.Room]

/-- The code of a call that did what it was asked to. -/
def successCode : Nat := 0

/-- The code of a call with arguments that were refused. -/
def refusalCode : Nat := 2

/-- Whether a cause is a fault of the configuration. -/
def isSettings : Failure → Bool
  | .settings _ => true
  | _ => false

/-- Tells a fault of the configuration and gives up; other causes go on. -/
def orTell {α : Type} (body : Run α) : Run (Option α) :=
  Run.recover isSettings (do return some (← body)) fun e => do
    Run.warn (paint red ("✖ " ++ e.message))
    pure none

/-- The store in the file that the settings name, by a text. -/
def pointerStore : Value → Except Failure PointerStore
  | .text path => .ok (.ofSpelling path)
  | _ => .error .wrongKind

/-- The detector that settings describe for the repository at a path. -/
def detectorFor (settings : Settings) (path : Value) : Run Detector := do
  let store ← Run.ofExcept (pointerStore settings.pointerFile)
  let lookbackHours ← Run.ofExcept settings.lookbackHours
  let lookahead ← Run.ofExcept settings.diffLookahead
  Detector.start path store lookbackHours lookahead

/-- The commits that were asked for: those of a span of time, or those since the last processed
one. -/
def detectCommits (d : Detector) : Option Lookback → Run (List Commit)
  | some span => d.recentChanges span
  | none => do return (← d.changesSinceLast).1

/-- Detects token changes in the design system and prints them. -/
def reportChanges (settings : Settings) (o : Options) : Run Unit := do
  let path := settings.designSystemPath (← get).designSystemVariable
  if path.isGiven then
    let detector ← detectorFor settings path
    let commits ← detectCommits detector o.recent
    if o.json then Run.printDocument (Commit.listing commits)
    else Run.print (Commit.overviewAs o.markdown commits)
  else
    Run.warn (paint yellow
      "⚠️  No design system path configured (set DESIGN_SYSTEM_PATH or design_system_path).")

/-- Writes the reports that were asked for and prints the results. -/
def reportResults (settings : Settings) (o : Options) (results : List ScanResult) : Run Unit := do
  let directory := settings.outputPath
  if !o.noReport then discard (Report.writeDocument results directory)
  if o.htmlReport then discard (Report.writePage results directory)
  if o.json then
    let report ← Run.ofExcept (Report.collect (← get).now results)
    Run.printDocument report.toValue
  else Run.print (ScanResult.overviewAs o.markdown results)

/-- Scans repositories and reports on them. -/
def reportScans (settings : Settings) (o : Options) : Run Unit := do
  let prepared ← orTell do
    let repositories ← Repository.select settings o.directory o.team
    let scanner ← Run.ofExcept (Scanner.ofSettings settings o.preset)
    pure (repositories, scanner)
  match prepared with
  | none => pure ()
  | some ([], _) =>
    Run.warn (paint yellow
      "⚠️  No repositories to scan. Pass a directory or configure repositories.")
  | some (repositories, scanner) =>
    reportResults settings o (← scanner.scanAll repositories)

/-- Does what options ask for. -/
def perform (o : Options) : Run Unit := do
  modify fun w => { w with verbose := !o.quiet }
  match ← orTell (Settings.load o.config) with
  | none => pure ()
  | some settings =>
    if o.changes || o.recent.isSome then reportChanges settings o else reportScans settings o

/-- A call of the program with arguments; the answer is the code it ends with. -/
def call (arguments : List String) : Run Nat := do
  match Options.ofArguments arguments with
  | .ok options =>
    perform options
    pure successCode
  | .error .help =>
    help.forM Run.print
    pure successCode
  | .error (.refused refusal) =>
    usage.forM Run.warn
    Run.warn (programName ++ ": error: " ++ refusal.message)
    pure refusalCode

/-- The program is started with no call of another one above it. -/
instance : Nesting.Room := Nesting.Room.ample

end DesignTokens.CommandLine
