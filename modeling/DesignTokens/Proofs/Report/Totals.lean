import DesignTokens.Proofs.Scan.Complete
import DesignTokens.Proofs.Token.Tally
import DesignTokens.Report.Basic

/-!
# The totals of a report

A report sums up the results of a scan in several ways: by result, by usage, by category, by team
and by tier. Every result that a scan can give is balanced, a failed one because it is empty, so all
these sums are the number of occurrences that the report lists, and every file that was found is
either scanned or has an entry among the errors. A report is made unless a team cannot be a key: the
mean of the coverages is never too large for a floating-point number.
-/

namespace DesignTokens

/-- An entry about a file that could not be read. -/
def isFileError (entry : String) : Bool := "Error scanning ".toList.isPrefixOf entry.toList

namespace ScanResult

/-- The occurrences that a result lists. -/
def occurrences (r : ScanResult) : List Occurrence := r.tokensFound.flatMap (·.occurrences)

/-- The figures of a result agree with what it lists. -/
structure IsBalanced (r : ScanResult) : Prop where
  counts : r.totalUsage = sumOf (r.tokensFound.map (·.totalCount))
  tiers : r.totalUsage = r.summary.tokensByTier.sum
  occurrences : r.totalUsage = r.occurrences.length
  files : r.summary.totalFiles = r.summary.scannedFiles + (r.errors.filter isFileError).length
  coverage : 0 ≤ r.coverage ∧ r.coverage ≤ Binary64.greatest

end ScanResult

/-- The totals of a report are those of the results, whatever way they are summed up. -/
structure Report.Agrees (report : Report) (results : List ScanResult) : Prop where
  repositories : report.repositories = results
  teams : report.totalTokens = report.summary.teamUsage.sum
  categories : report.totalTokens = report.summary.tokensByCategory.sum
  tiers : report.totalTokens =
    sumOf (report.repositories.map fun r => r.summary.tokensByTier.sum)
  occurrences : report.totalTokens =
    ((report.repositories.flatMap ScanResult.occurrences).length : Int)
  files : report.summary.totalFiles =
    sumOf (report.repositories.map (·.summary.scannedFiles)) +
      (((report.repositories.flatMap (·.errors)).filter isFileError).length : Int)

section Coverage

open Binary64 in
/-- A coverage is a whole number in the range of the finite numbers. -/
theorem coverage_mem_range (tokens : Nat) (catalogSize : Int) :
    0 ≤ coverage tokens catalogSize ∧ coverage tokens catalogSize ≤ greatest := by
  unfold coverage
  split
  · exact ⟨le_refl 0, Int.natCast_nonneg _⟩
  · have hsign : decide ((tokens : Int) < 0) = false := by simp
    unfold ofQuotient
    rw [hsign]
    cases hquotient : ofRatio false (tokens : Int).natAbs catalogSize.toNat with
    | finite sign m e =>
      obtain ⟨rfl, -, -⟩ := of_ofRatio hquotient
      unfold scale
      dsimp only
      cases hproduct : ofRatio false (100 * (ratio m e).1) (ratio m e).2 with
      | finite sign m e =>
        obtain ⟨rfl, hm, he⟩ := of_ofRatio hproduct
        have hround := roundDiv_ratio_le hm he
        exact ⟨Int.natCast_nonneg _, Int.ofNat_le.mpr hround⟩
      | infinite sign => exact ⟨le_refl 0, Int.natCast_nonneg _⟩
      | nan => exact ⟨le_refl 0, Int.natCast_nonneg _⟩
    | infinite sign => exact ⟨le_refl 0, Int.natCast_nonneg _⟩
    | nan => exact ⟨le_refl 0, Int.natCast_nonneg _⟩

end Coverage

namespace ReportSummary

variable {results : List ScanResult}

theorem sum_categoryTotals (usages : List Usage) :
    (categoryTotals usages).sum = sumOf (usages.map (·.totalCount)) := by
  have hfold : ∀ before : Tally,
      (usages.foldl (fun t u => Tally.bump (categoryOf u) u.totalCount t) before).sum =
        before.sum + sumOf (usages.map (·.totalCount)) := by
    induction usages with
    | nil => simp
    | cons u usages ih =>
      intro before
      rw [List.foldl_cons, ih, Tally.sum_bump, List.map_cons, sumOf_cons]
      omega
  have hzero : Tally.sum [] = 0 := rfl
  rw [categoryTotals, hfold, hzero, Int.zero_add]

/-- The usage of the teams is that of all results, and every team that can be a key is counted. -/
theorem teamTotals_cases (results : List ScanResult) :
    (∃ teams, teamTotals results = .ok teams ∧ teams.sum = sumOf (results.map (·.totalUsage)) ∧
        ∀ r ∈ results, (teamOf r).isKey = true) ∨
      (∃ e, teamTotals results = .error e) ∧ ∃ r ∈ results, (teamOf r).isKey = false := by
  have hfold : ∀ before : Tally,
      (∃ teams, results.foldlM (fun t r => t.add (teamOf r) r.totalUsage) before = .ok teams ∧
          teams.sum = before.sum + sumOf (results.map (·.totalUsage)) ∧
          ∀ r ∈ results, (teamOf r).isKey = true) ∨
        (∃ e, results.foldlM (fun t r => t.add (teamOf r) r.totalUsage) before = .error e) ∧
          ∃ r ∈ results, (teamOf r).isKey = false := by
    induction results with
    | nil => exact fun before => .inl ⟨before, rfl, by simp, nofun⟩
    | cons r results ih =>
      intro before
      rw [List.foldlM_cons, Tally.add]
      cases hr : (teamOf r).isKey with
      | false => exact .inr ⟨⟨_, rfl⟩, r, List.mem_cons_self, hr⟩
      | true =>
        rcases ih (Tally.bump (teamOf r) r.totalUsage before) with
          ⟨teams, hteams, hsum, hkeys⟩ | ⟨hfailed, r', hr', hkey⟩
        · refine .inl ⟨teams, hteams, ?_, List.forall_mem_cons.mpr ⟨hr, hkeys⟩⟩
          rw [hsum, Tally.sum_bump, List.map_cons, sumOf_cons]
          omega
        · exact .inr ⟨hfailed, r', List.mem_cons_of_mem r hr', hkey⟩
  have hzero : Tally.sum [] = 0 := rfl
  simpa only [teamTotals, hzero, Int.zero_add] using hfold []

/-- The mean of coverages in the range is in the range. -/
theorem exists_average (h : ∀ r ∈ results, 0 ≤ r.coverage ∧ r.coverage ≤ Binary64.greatest) :
    ∃ mean, average results = .ok mean := by
  have hsum : 0 ≤ sumOf (results.map (·.coverage)) ∧
      sumOf (results.map (·.coverage)) ≤ Binary64.greatest * results.length := by
    induction results with
    | nil =>
      rw [List.map_nil, sumOf_nil, List.length_nil, Nat.cast_zero, mul_zero]
      exact ⟨le_rfl, le_rfl⟩
    | cons r results ih =>
      obtain ⟨⟨hlow, hhigh⟩, hrest⟩ := List.forall_mem_cons.mp h
      obtain ⟨ihlow, ihhigh⟩ := ih hrest
      rw [List.map_cons, sumOf_cons, List.length_cons, Nat.cast_add_one, mul_add_one]
      exact ⟨add_nonneg hlow ihlow, by omega⟩
  have hfinite : ∀ sign, Binary64.ofQuotient (sumOf (results.map (·.coverage))) results.length ≠
      .infinite sign := by
    intro sign
    refine Binary64.ofRatio_ne_infinite ?_
    obtain ⟨hlow, hhigh⟩ := hsum
    zify
    rwa [abs_of_nonneg hlow]
  unfold average
  split
  · exact ⟨none, rfl⟩
  · split
    next sign hsign => exact absurd hsign (hfinite sign)
    next => exact ⟨_, rfl⟩

end ReportSummary

namespace Report

variable {results : List ScanResult} {now : Timestamp}

/-- A report is made of the figures of the results, if there are a tally of the teams and a mean. -/
theorem ofResults_eq_ok_iff {report : Report} : ofResults now results = .ok report ↔
    ∃ teams mean, ReportSummary.teamTotals results = .ok teams ∧
      ReportSummary.average results = .ok mean ∧
      report =
        { scanDate := now
          totalTokens := sumOf (results.map (·.totalUsage))
          uniqueTokens := ((ReportSummary.usagesOf results).map (·.tokenName)).eraseDups.length
          repositories := results
          summary :=
            { totalFiles := sumOf (results.map (·.summary.totalFiles))
              averageCoverage := mean
              tokensByCategory := ReportSummary.categoryTotals (ReportSummary.usagesOf results)
              teamUsage := teams
              topTokens := TopToken.select (ReportSummary.usagesOf results) } } := by
  simp only [ofResults, ReportSummary.ofResults, bind_eq_ok_iff]
  constructor
  · rintro ⟨summary, ⟨teams, hteams, mean, hmean, hsummary⟩, hreport⟩
    obtain rfl := Except.ok.inj hsummary
    exact ⟨teams, mean, hteams, hmean, (Except.ok.inj hreport).symm⟩
  · rintro ⟨teams, mean, hteams, hmean, rfl⟩
    exact ⟨_, ⟨teams, hteams, mean, hmean, rfl⟩, rfl⟩

/-- There is a report exactly when every team can be a key and the coverages have a mean. -/
theorem exists_ofResults_iff_average : (∃ report, ofResults now results = .ok report) ↔
    (∀ r ∈ results, (ReportSummary.teamOf r).isKey = true) ∧
      ∃ mean, ReportSummary.average results = .ok mean := by
  simp only [ofResults_eq_ok_iff]
  constructor
  · rintro ⟨report, teams, mean, hteams, hmean, -⟩
    rcases ReportSummary.teamTotals_cases results with ⟨-, -, -, hkeys⟩ | ⟨⟨e, hfailed⟩, -⟩
    · exact ⟨hkeys, mean, hmean⟩
    · rw [hteams] at hfailed
      cases hfailed
  · rintro ⟨hkeys, mean, hmean⟩
    rcases ReportSummary.teamTotals_cases results with ⟨teams, hteams, -⟩ | ⟨-, r, hr, hkey⟩
    · exact ⟨_, teams, mean, hteams, hmean, rfl⟩
    · rw [hkeys r hr] at hkey
      cases hkey

/-- A report on balanced results is made exactly when every team can be a key. -/
theorem exists_ofResults_iff (h : ∀ r ∈ results, r.IsBalanced) :
    (∃ report, ofResults now results = .ok report) ↔
      ∀ r ∈ results, (ReportSummary.teamOf r).isKey = true :=
  exists_ofResults_iff_average.trans
    (and_iff_left (ReportSummary.exists_average fun r hr => (h r hr).coverage))

/-- The totals of a report on balanced results agree. -/
theorem agrees_of_ofResults (h : ∀ r ∈ results, r.IsBalanced) {report : Report}
    (hreport : ofResults now results = .ok report) : report.Agrees results := by
  obtain ⟨teams, mean, hteams, -, rfl⟩ := ofResults_eq_ok_iff.mp hreport
  constructor
  case repositories => rfl
  case teams =>
    rcases ReportSummary.teamTotals_cases results with
      ⟨teams', hteams', hsum, -⟩ | ⟨⟨e, hfailed⟩, -⟩
    · rw [hteams] at hteams'
      obtain rfl := Except.ok.inj hteams'
      exact hsum.symm
    · rw [hteams] at hfailed
      cases hfailed
  case categories =>
    dsimp only
    rw [ReportSummary.sum_categoryTotals]
    unfold ReportSummary.usagesOf
    rw [sumOf_map_flatMap]
    exact congrArg sumOf (List.map_congr_left fun r hr => (h r hr).counts)
  case tiers => exact congrArg sumOf (List.map_congr_left fun r hr => (h r hr).tiers)
  case occurrences =>
    dsimp only
    rw [← sumOf_map_length]
    exact congrArg sumOf (List.map_congr_left fun r hr => (h r hr).occurrences)
  case files =>
    dsimp only
    rw [List.filter_flatMap, ← sumOf_map_length, ← sumOf_map_add]
    exact congrArg sumOf (List.map_congr_left fun r hr => (h r hr).files)

end Report

section Entries

/-- An entry with another beginning is about something else. -/
theorem isFileError_append {start : String} (h : (start.toList.head?.any (· != 'E')) = true)
    (rest : String) : isFileError (start ++ rest) = false := by
  obtain ⟨c, hc, hne⟩ := (Option.any_eq_true _ _).mp h
  obtain ⟨more, hstart⟩ := List.head?_eq_some_iff.mp hc
  have hprefix : "Error scanning ".toList = 'E' :: "rror scanning ".toList := by decide
  have hE : ('E' == c) = false := by
    rw [beq_eq_false_iff_ne]
    exact (bne_iff_ne.mp hne).symm
  unfold isFileError
  rw [String.toList_append, hstart, hprefix, List.cons_append, List.isPrefixOf_cons_cons, hE,
    Bool.false_and]

/-- The complaint about a file that could not be read begins with the words for it. -/
theorem SourceFile.isFileError_of_complaint? {w : World} {root path entry : String}
    {f : SourceFile} (h : SourceFile.read w root path = .ok f)
    (hentry : f.complaint? = some entry) :
    isFileError entry = true := by
  have hbegins : ∀ e : Failure,
      isFileError ("Error scanning " ++ path ++ ": " ++ e.message) = true := by
    intro e
    unfold isFileError
    rw [String.append_assoc, String.append_assoc, String.toList_append, List.isPrefixOf_iff_prefix]
    exact List.prefix_append _ _
  rw [Scanner.complaint?_of_read h] at hentry
  unfold Scanner.complaintAt at hentry
  split at hentry
  · cases hentry
  · rename_i e _
    exact Option.some.inj hentry ▸ hbegins e

/-- Complaints about patterns are not about files. -/
theorem Discovery.isFileError_of_discover [Nesting.Room] {d : Discovery} {w : World}
    {root entry : String}
    {paths complaints : List String}
    (h : outcome (d.discover w root) [] = (.ok paths, complaints)) (hentry : entry ∈ complaints) :
    isFileError entry = false := by
  obtain ⟨top, at_, hroot⟩ := Discovery.exists_openRoot h
  obtain ⟨-, rfl⟩ := (gives_discover d hroot).outcome_eq h
  obtain ⟨pattern, -, hentry⟩ := List.mem_flatMap.mp hentry
  cases pattern with
  | text p =>
    obtain ⟨expanded, -, hentry⟩ := List.mem_flatMap.mp hentry
    unfold complaintOf at hentry
    split at hentry
    · obtain rfl := List.mem_singleton.mp hentry
      unfold complaint
      rw [String.append_assoc, String.append_assoc]
      exact isFileError_append (by simp) _
    · cases hentry
  | _ => cases hentry

/-- The reason why there is no directory to scan is not about a file. -/
theorem Scanner.isFileError_of_isUnavailable {e : Failure} (h : isUnavailable e = true) :
    isFileError e.message = false := by
  cases e with
  | root fault =>
    cases fault with
    | absent root => exact isFileError_append (by simp) root
    | notDirectory root => exact isFileError_append (by simp) root
    | localAbsent location => exact isFileError_append (by simp) location
  | unprepared name cause =>
    change isFileError ("Could not prepare " ++ name ++ ": " ++ cause) = false
    rw [String.append_assoc, String.append_assoc]
    exact isFileError_append (by simp) _
  | _ => cases h

end Entries

namespace Scanner

variable {s : Scanner} {r : Repository} {rs : List Repository} {w w' : World}
  {result : ScanResult} {results : List ScanResult}

/-- The result of all stages is balanced. -/
theorem Stages.isBalanced [Nesting.Room] {directory : String} {w₁ : World}
    {paths complaints : List String}
    {files : List SourceFile} (h : Stages s r w directory w₁ paths complaints files result) :
    result.IsBalanced := by
  obtain ⟨us, hsums⟩ := exists_sums h.summed
  have hconserved := hsums.isConserved
  obtain ⟨us', -, hsummed⟩ := bind_eq_ok_iff.mp h.summed
  obtain ⟨summary, hsummary, hsummed⟩ := bind_eq_ok_iff.mp hsummed
  obtain ⟨tiers, -, hsummary⟩ := bind_eq_ok_iff.mp hsummary
  obtain rfl := Except.ok.inj hsummary
  obtain rfl := Except.ok.inj hsummed
  constructor
  case counts => exact hconserved.counts
  case tiers => exact hconserved.tiers
  case occurrences =>
    rw [hconserved.counts]
    unfold ScanResult.occurrences
    rw [← sumOf_map_length]
    exact congrArg sumOf (List.map_congr_left fun u hu => (hconserved.usages u hu).counted)
  case files =>
    have hpatterns : complaints.filter isFileError = [] := by
      rw [List.filter_eq_nil_iff]
      intro entry hentry
      simp [Discovery.isFileError_of_discover h.discovered hentry]
    have hfiles : (files.filterMap SourceFile.complaint?).filter isFileError =
        files.filterMap SourceFile.complaint? := by
      rw [List.filter_eq_self]
      intro entry hentry
      obtain ⟨f, hf, hcomplaint⟩ := List.mem_filterMap.mp hentry
      obtain ⟨path, -, hread⟩ := (mem_iff_of_mapM h.read).mp hf
      exact SourceFile.isFileError_of_complaint? hread hcomplaint
    dsimp only
    rw [List.filter_append, hpatterns, hfiles, List.nil_append, ← Scanner.length_readable files]
    exact Nat.cast_add _ _
  case coverage => exact coverage_mem_range _ _

/-- A failed result is balanced. -/
theorem isBalanced_failed {e : Failure} (h : isUnavailable e = true) (now : Timestamp) :
    (ScanResult.failed r now e.message).IsBalanced := by
  constructor
  case counts => rfl
  case tiers => rfl
  case occurrences => rfl
  case files =>
    have hnone : [e.message].filter isFileError = [] := by
      rw [List.filter_eq_nil_iff, List.forall_mem_singleton, isFileError_of_isUnavailable h]
      decide
    unfold ScanResult.failed
    dsimp only
    rw [hnone]
    rfl
  case coverage => exact ⟨le_refl 0, Int.natCast_nonneg _⟩

/-- What a scan gives for a repository: a result of stages that all succeed, or a failed one with
the reason why there is no directory. -/
inductive IsOutcome [Nesting.Room] (s : Scanner) (r : Repository) : ScanResult → Prop
  | scanned {w w₁ : World} {directory : String} {paths complaints : List String}
    {files : List SourceFile} {result : ScanResult}
    (h : Stages s r w directory w₁ paths complaints files result) : IsOutcome s r result
  | failed {e : Failure} (h : isUnavailable e = true) (now : Timestamp) :
    IsOutcome s r (.failed r now e.message)

theorem isOutcome_of_scanOrFail [Nesting.Room] (h : outcome (s.scanOrFail r) w = (.ok result, w')) :
    IsOutcome s r result := by
  obtain ⟨-, w₁, -, h⟩ := exists_of_outcome_bind h
  rcases exists_of_outcome_recover h with hscan | ⟨e, w₂, -, hunavailable, hfailed⟩
  · obtain ⟨found, w₂, hfound, hsaid⟩ := exists_of_outcome_bind hscan
    obtain ⟨-, w₃, -, hsame⟩ := exists_of_outcome_bind hsaid
    obtain ⟨directory, w₄, paths, complaints, files, hstages⟩ := exists_stages hfound
    cases hsame
    exact .scanned hstages
  · obtain ⟨-, w₃, -, hfailed⟩ := exists_of_outcome_bind hfailed
    rw [outcome_bind_of_ok (outcome_get w₃)] at hfailed
    cases hfailed
    exact .failed hunavailable _

/-- Every result of a scan of several repositories is what a scan gives for one of them. -/
theorem isOutcome_of_scanAll [Nesting.Room] (h : outcome (s.scanAll rs) w = (.ok results, w')) :
    ∀ result ∈ results, ∃ r, IsOutcome s r result := by
  rw [outcome_scanAll] at h
  intro result hresult
  obtain ⟨r, -, w₁, w₂, hscan⟩ := exists_of_mem_forall₂ (forall₂_of_outcome_mapM h) hresult
  exact ⟨r, isOutcome_of_scanOrFail hscan⟩

/-- All results that a scan of several repositories gives are balanced. -/
theorem isBalanced_of_scanAll [Nesting.Room] (h : outcome (s.scanAll rs) w = (.ok results, w')) :
    ∀ result ∈ results, result.IsBalanced := by
  intro result hresult
  obtain ⟨r, hr⟩ := isOutcome_of_scanAll h result hresult
  cases hr with
  | scanned hstages => exact hstages.isBalanced
  | failed hunavailable now => exact isBalanced_failed hunavailable now

/-- The report on what a scan gives is made exactly when every team can be a key, and its totals
agree. -/
theorem report_agrees [Nesting.Room] (h : outcome (s.scanAll rs) w = (.ok results, w'))
    (now : Timestamp) :
    ((∃ report, Report.ofResults now results = .ok report) ↔
        ∀ result ∈ results, (ReportSummary.teamOf result).isKey = true) ∧
      ∀ report, Report.ofResults now results = .ok report → report.Agrees results :=
  have hbalanced := isBalanced_of_scanAll h
  ⟨Report.exists_ofResults_iff hbalanced, fun _ => Report.agrees_of_ofResults hbalanced⟩

attribute [local instance] Nesting.Room.ample

/-- The report on a directory that is not there and one with a stylesheet. -/
theorem report_agrees_goneAndRepo : ∃ results w' report,
    outcome (shelving.scanAll goneAndRepo) (World.ofFiles oneStylesheet) = (.ok results, w') ∧
      Report.ofResults default results = .ok report ∧ report.totalTokens = 2 ∧
      report.Agrees results := by
  have htotal : ((outcome (shelving.scanAll goneAndRepo)
      (World.ofFiles oneStylesheet)).1.toOption.bind fun results =>
        (Report.ofResults default results).toOption.map (·.totalTokens)) = some 2 := by
    decide +kernel
  obtain ⟨results, hresults, htotal⟩ := Option.bind_eq_some_iff.mp htotal
  obtain ⟨report, hreport, htwo⟩ := Option.map_eq_some_iff.mp htotal
  obtain ⟨w', h⟩ := exists_outcome_of_toOption hresults
  have hok := eq_ok_of_toOption hreport
  exact ⟨results, w', report, h, hok, htwo, (report_agrees h default).2 report hok⟩

end Scanner

end DesignTokens
