import DesignTokens.Repository
import DesignTokens.Token.Usage
import DesignTokens.UiPattern

/-!
# Results of scans

What the scan of one repository found. The figures of a result are computed from the usages found
in its files, so they agree with each other; a repository that could not be scanned has an empty
result with the reason among its errors.
-/

namespace DesignTokens

/-- The figures of a scan. -/
structure ScanSummary where
  totalFiles : Int
  scannedFiles : Int
  /-- The usages of all tokens together. -/
  tokensFound : Int
  uniqueTokens : Int
  /-- The name of the first token, empty if there is none. -/
  mostUsedToken : String
  coveragePercentage : Int
  tokensByTier : Tally
  deriving Repr, Inhabited, BEq

/-- What the scan of a repository found. -/
structure ScanResult where
  repository : Repository
  scanDate : Timestamp
  tokensFound : List Usage
  totalUsage : Int
  /-- The percentage of the catalog that the tokens found make up. -/
  coverage : Int
  patterns : List UiPattern
  errors : List String
  summary : ScanSummary
  durationMs : Int
  deriving Repr, Inhabited, BEq

namespace ScanSummary

/-- The figures of an empty scan. -/
def empty : ScanSummary :=
  ⟨0, 0, 0, 0, "", 0, []⟩

/-- The fields of a summary as an object. -/
def toValue (s : ScanSummary) : Value :=
  .object
    [ ("total_files", .int s.totalFiles), ("scanned_files", .int s.scannedFiles),
      ("tokens_found", .int s.tokensFound), ("unique_tokens", .int s.uniqueTokens),
      ("most_used_token", .text s.mostUsedToken),
      ("coverage_percentage", .int s.coveragePercentage),
      ("tokens_by_tier", s.tokensByTier.toValue) ]

end ScanSummary

namespace ScanResult

/-- The result of a scan that could not be made. -/
def failed (repository : Repository) (date : Timestamp) (error : String) : ScanResult :=
  { repository := repository
    scanDate := date
    tokensFound := []
    totalUsage := 0
    coverage := 0
    patterns := []
    errors := [error]
    summary := .empty
    durationMs := 0 }

/-- The fields of a result as an object. -/
def toValue (r : ScanResult) : Value :=
  .object
    [ ("repository", r.repository.toValue), ("scan_date", .text r.scanDate.iso),
      ("tokens_found", .list (r.tokensFound.map Usage.toValue)),
      ("total_usage", .int r.totalUsage), ("coverage", .int r.coverage),
      ("patterns", .list (r.patterns.map UiPattern.toValue)),
      ("errors", .texts r.errors), ("summary", r.summary.toValue),
      ("duration_ms", .int r.durationMs) ]

end ScanResult

end DesignTokens
