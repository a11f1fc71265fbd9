import DesignTokens.Scan.Result
import DesignTokens.Terminal.Color

/-!
# Overview of scans

The results of scans as text for the terminal, with colors, or with emphasis marks in place of
them.
-/

namespace DesignTokens

open Terminal

namespace ScanResult

/-- How many structural patterns an overview shows. -/
def shownPatterns : Nat := 5

/-- How many errors an overview shows. -/
def shownErrors : Nat := 3

/-- The line on tiers, if usage was counted by tier. -/
def tierLines (s : ScanSummary) : List String :=
  if s.tokensByTier.isEmpty then []
  else
    let counts := s.tokensByTier.map fun t => t.1.displayString ++ " " ++ toString t.2
    ["By tier: " ++ String.intercalate ", " counts]

/-- The lines on errors: their number, the first of them, and how many are not shown. -/
def errorLines (errors : List String) : List String :=
  if errors.isEmpty then []
  else
    paint red ("⚠️  " ++ toString errors.length ++ " errors:") ::
      ((errors.take shownErrors).map ("  • " ++ ·) ++
        (if shownErrors < errors.length then
          ["  ... and " ++ toString (errors.length - shownErrors) ++ " more"]
        else []))

/-- The line on a structural pattern. -/
def patternLine (p : UiPattern) : String :=
  "  🧩 " ++ p.name ++ ": " ++ toString p.count ++ " (" ++ p.complexity.word ++ ")"

/-- The lines on a result. -/
def overviewLines (r : ScanResult) : List String :=
  [ "\n" ++ paint bold ("📂 " ++ r.repository.name.displayString),
    "Files: " ++ toString r.summary.scannedFiles ++ "/" ++ toString r.summary.totalFiles ++
      " scanned",
    "Token usages: " ++ toString r.totalUsage ++ " (" ++ toString r.summary.uniqueTokens ++
      " unique)",
    "Coverage: " ++ toString r.coverage ++ "%" ] ++
  (if r.summary.mostUsedToken = "" then []
    else ["Most used token: " ++ r.summary.mostUsedToken]) ++
  tierLines r.summary ++ (r.patterns.take shownPatterns).map patternLine ++ errorLines r.errors

/-- The lines above the results. -/
def overviewHeading : List String :=
  ["\n" ++ paint bold "🎨 Token Usage Scan", paint grey "================================"]

/-- The overview of results for the terminal. -/
def overview (results : List ScanResult) : String :=
  String.intercalate "\n" (overviewHeading ++
    (if results.isEmpty then [paint yellow "No repositories scanned."]
      else results.flatMap overviewLines))

/-- The overview of results, with emphasis in place of colors if `marked` says so. -/
def overviewAs (marked : Bool) (results : List ScanResult) : String :=
  if marked then emphasize (overview results) else overview results

end ScanResult

end DesignTokens
