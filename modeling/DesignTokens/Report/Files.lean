import DesignTokens.Report.Page
import DesignTokens.World

/-!
# Report files

Reports are written to files of a directory, which is made if it is missing: as a document named
after the point in time, and as a page that is replaced each time.
-/

namespace DesignTokens.Report

open Terminal

variable [Nesting.Room]

/-- The path of a directory for reports, which must be a text. -/
def directoryPath : Value → Except Failure Spelling
  | .text path => .ok path
  | _ => .error .wrongKind

/-- Whether there is room to take the fields of a result over: those of its repository and those of
the categories of its tokens hold values of any kind. -/
def isShallow (r : ScanResult) : Bool :=
  r.repository.toValue.depth ≤ Nesting.Site.repository.limit &&
    r.tokensFound.all fun u =>
      u.category.all fun c => c.toValue.depth ≤ Nesting.Site.category.limit

/-- The report on results at a point in time, with the fields of the results taken over. -/
def collect (now : Timestamp) (results : List ScanResult) : Except Failure Report :=
  if results.all isShallow then ofResults now results else .error (.tooDeep .fields)

/-- Writes the report on results as a document and tells its path. The file is there, empty, even
if there is no report to write. -/
def writeDocument (results : List ScanResult) (directory : Value) : Run String := do
  let directory ← Run.makeSpelledDirectories .reports
    (← Run.ofExcept (directoryPath directory))
  let now := (← get).now
  let path := PathText.append directory ("token-scan-" ++ now.fileSafe ++ ".json")
  Run.writeText path ""
  let report ← Run.ofExcept (collect now results)
  Run.writeDocument path report.toValue
  Run.say (paint green ("📊 Scan report generated: " ++ path))
  pure path

/-- Writes the report on results as a page and tells its path. -/
def writePage (results : List ScanResult) (directory : Value) : Run String := do
  let now := (← get).now
  let report ← Run.ofExcept (collect now results)
  let directory ← Run.makeSpelledDirectories .reports
    (← Run.ofExcept (directoryPath directory))
  let path := PathText.append directory "token-scan-report.html"
  match Page.halves? now report with
  | some halves => do
    Run.writeText path ""
    throw (.noBytes halves)
  | none => Run.writeText path (Page.ofReport now report)
  Run.say (paint green ("HTML report generated at: " ++ path))
  pure path

end DesignTokens.Report
