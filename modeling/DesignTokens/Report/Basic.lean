import DesignTokens.Scan.Result

/-!
# Reports

What the results of several repositories say together: totals, the average coverage, the usage by
category and by team, and the tokens that are used most.
-/

namespace DesignTokens

/-- One of the tokens that are used most. -/
structure TopToken where
  name : String
  usage : Int
  category : Option String
  deriving DecidableEq, Repr, Inhabited

/-- The figures of several results together. -/
structure ReportSummary where
  totalFiles : Int
  /-- The mean of the coverages, to two places; absent without results. -/
  averageCoverage : Option Binary64
  tokensByCategory : Tally
  teamUsage : Tally
  topTokens : List TopToken
  deriving Repr

/-- The results of several repositories and their figures. -/
structure Report where
  scanDate : Timestamp
  totalTokens : Int
  uniqueTokens : Nat
  repositories : List ScanResult
  summary : ReportSummary
  deriving Repr

namespace TopToken

/-- How many tokens are listed. -/
def limit : Nat := 10

/-- The entry for a usage. -/
def ofUsage (u : Usage) : TopToken :=
  ⟨u.tokenName, u.totalCount, u.category.map (·.label)⟩

/-- The usages with the highest counts; equally used ones keep their order. -/
def select (usages : List Usage) : List TopToken :=
  ((sortByCount (·.totalCount) usages).take limit).map ofUsage

/-- The fields of an entry as an object. -/
def toValue (t : TopToken) : Value :=
  .object [("name", .text t.name), ("usage", .int t.usage), ("category", .ofText? t.category)]

end TopToken

namespace ReportSummary

/-- The usages of all results, in order. -/
def usagesOf (results : List ScanResult) : List Usage :=
  results.flatMap (·.tokensFound)

/-- The category that a usage counts for. -/
def categoryOf (u : Usage) : Value :=
  .text ((u.category.map (·.label)).getD "uncategorized")

/-- The usage counted in each category. -/
def categoryTotals (usages : List Usage) : Tally :=
  usages.foldl (fun t u => Tally.bump (categoryOf u) u.totalCount t) []

/-- The team that a result counts for. -/
def teamOf (r : ScanResult) : Value :=
  r.repository.team.orElse (.text "unassigned")

/-- The usage counted for each team; a team must be able to be a key. -/
def teamTotals (results : List ScanResult) : Except Failure Tally :=
  results.foldlM (fun t r => t.add (teamOf r) r.totalUsage) []

/-- The mean of the coverages, to two places. -/
def average (results : List ScanResult) : Except Failure (Option Binary64) :=
  if results.isEmpty then .ok none
  else
    match Binary64.ofQuotient (sumOf (results.map (·.coverage))) results.length with
    | .infinite _ => .error (.overflow "integer division result too large for a float")
    | mean => .ok (some (mean.roundPlaces 2))

/-- The figures of results. -/
def ofResults (results : List ScanResult) : Except Failure ReportSummary := do
  let usages := usagesOf results
  let teams ← teamTotals results
  let mean ← average results
  .ok
    { totalFiles := sumOf (results.map (·.summary.totalFiles))
      averageCoverage := mean
      tokensByCategory := categoryTotals usages
      teamUsage := teams
      topTokens := TopToken.select usages }

/-- The average coverage as a value; zero without results. -/
def averageValue (s : ReportSummary) : Value :=
  match s.averageCoverage with
  | some mean => .real mean
  | none => .int 0

/-- The fields of a summary as an object. -/
def toValue (s : ReportSummary) : Value :=
  .object
    [ ("total_files", .int s.totalFiles), ("average_coverage", s.averageValue),
      ("tokens_by_category", s.tokensByCategory.toValue), ("team_usage", s.teamUsage.toValue),
      ("top_tokens", .list (s.topTokens.map TopToken.toValue)) ]

end ReportSummary

namespace Report

/-- The report on results at a point in time. -/
def ofResults (now : Timestamp) (results : List ScanResult) : Except Failure Report := do
  let summary ← ReportSummary.ofResults results
  .ok
    { scanDate := now
      totalTokens := sumOf (results.map (·.totalUsage))
      uniqueTokens := ((ReportSummary.usagesOf results).map (·.tokenName)).eraseDups.length
      repositories := results
      summary := summary }

/-- The fields of a report as an object. -/
def toValue (r : Report) : Value :=
  .object
    [ ("scan_date", .text r.scanDate.iso), ("total_repositories", .int r.repositories.length),
      ("total_tokens_found", .int r.totalTokens), ("total_unique_tokens", .int r.uniqueTokens),
      ("repositories", .list (r.repositories.map ScanResult.toValue)),
      ("summary", r.summary.toValue) ]

end Report

end DesignTokens
