import DesignTokens.Proofs.Scan.Complete
import DesignTokens.Proofs.Scan.Once

/-!
# Answers of scans

What a scan answers depends on the directory that is prepared for it and on the files there, and not
on what is shown meanwhile. The tokens and their totals are computed from the files that could be
read, the rest of the result is arithmetic on them.
-/

namespace DesignTokens

namespace Scanner

variable {s : Scanner} {r : Repository} {w w₁ : World} {directory root : String}

/-- What a scan answers in a directory that has been prepared. -/
def resultIn [Nesting.Room] (s : Scanner) (r : Repository) (w : World) (root : String) :
    Except Failure ScanResult := do
  let paths ← (outcome (s.discovery.discover w root) []).1
  let files ← paths.mapM (SourceFile.read w root)
  s.resultOf r w (outcome (s.discovery.discover w root) []).2 files

/-- A scan answers with the result in the directory that is prepared, if there can be one with this
path. -/
theorem fst_outcome_scan [Nesting.Room]
    (hprepared : outcome (Checkout.prepare s.copies r) w = (.ok directory, w₁)) :
    (outcome (s.scan r) w).1 =
      (outcome (Run.requirePath directory) w₁).1.bind fun _ =>
        s.resultIn r w₁ (w₁.realPath directory) := by
  unfold scan resultIn
  rw [outcome_bind_of_ok hprepared]
  rcases hpath : outcome (Run.requirePath directory) w₁ with ⟨e | ⟨⟩, w₂⟩
  · rw [outcome_bind_of_error hpath]
    rfl
  obtain ⟨-, rfl⟩ := Run.isPossible_of_requirePath hpath
  rw [outcome_bind_of_ok hpath, outcome_bind_of_ok (outcome_get w₂)]
  rcases hdiscovered : outcome (s.discovery.discover w₂ (w₂.realPath directory)) [] with
    ⟨found, complaints⟩
  have hrun : (s.discovery.discover w₂ (w₂.realPath directory)).run.run [] = (found, complaints) :=
    hdiscovered
  simp only [hrun]
  rcases found with e | paths
  · rw [outcome_bind_of_error (outcome_ofExcept (.error e) w₂)]
    rfl
  rw [outcome_bind_of_ok (outcome_ofExcept (.ok paths) w₂), outcome_bind_of_ok (outcome_say _ w₂)]
  show _ = (paths.mapM (SourceFile.read w₂ (w₂.realPath directory)) >>= _)
  rcases paths.mapM (SourceFile.read w₂ (w₂.realPath directory)) with e | files
  · rw [outcome_bind_of_error (outcome_ofExcept (.error e) _)]
    rfl
  rw [outcome_bind_of_ok (outcome_ofExcept (.ok files) _)]
  show _ = s.resultOf r w₂ complaints files
  rcases s.resultOf r w₂ complaints files with e | result
  · rw [outcome_bind_of_error (outcome_ofExcept (.error e) _)]
  · rw [outcome_bind_of_ok (outcome_ofExcept (.ok result) _), outcome_bind_of_ok (outcome_say _ _)]
    rfl

theorem fst_outcome_scan_of_isPossible [Nesting.Room]
    (hprepared : outcome (Checkout.prepare s.copies r) w = (.ok directory, w₁))
    (hpossible : PathText.IsPossible directory) :
    (outcome (s.scan r) w).1 = s.resultIn r w₁ (w₁.realPath directory) := by
  rw [fst_outcome_scan hprepared, Run.outcome_requirePath hpossible]
  simp only [Except.bind]

/-- A scan with a result has prepared a directory with a possible path. -/
theorem isPossible_of_scan [Nesting.Room] {result : ScanResult} {left : World}
    (hprepared : outcome (Checkout.prepare s.copies r) w = (.ok directory, w₁))
    (h : outcome (s.scan r) w = (.ok result, left)) : PathText.IsPossible directory := by
  have hresult := (fst_outcome_scan hprepared).symm.trans (congrArg Prod.fst h)
  rcases hpath : outcome (Run.requirePath directory) w₁ with ⟨e | ⟨⟩, w₂⟩
  · rw [hpath] at hresult
    simp only [Except.bind] at hresult
    cases hresult
  · exact (Run.isPossible_of_requirePath hpath).1

/-- Where no directory is prepared, the cause is that of the scan. -/
theorem fst_outcome_scan_of_error [Nesting.Room] {e : Failure}
    (hprepared : outcome (Checkout.prepare s.copies r) w = (.error e, w₁)) :
    (outcome (s.scan r) w).1 = .error e :=
  congrArg Prod.fst (outcome_bind_of_error hprepared _)

/-- The tokens in files and their totals by tier, if their levels can be counted by. -/
def tokensIn (s : Scanner) (files : List (String × String)) :
    Except Failure (List Usage × Tally) := do
  let tokens := Usage.aggregate (← s.usagesIn files)
  let tiers ← Usage.tierTotals tokens
  .ok (tokens, tiers)

/-- The result with these tokens and totals by tier. -/
def report (s : Scanner) (r : Repository) (w : World) (complaints : List String)
    (files : List SourceFile) (found : List Usage × Tally) : ScanResult :=
  let usage := sumOf (found.1.map (·.totalCount))
  let share := DesignTokens.coverage found.1.length s.catalogSize
  { repository := r
    scanDate := w.now
    tokensFound := found.1
    totalUsage := usage
    coverage := share
    patterns := UiPattern.aggregate (patternsIn (readable files))
    errors := complaints ++ files.filterMap SourceFile.complaint?
    summary :=
      { totalFiles := files.length
        scannedFiles := (readable files).length
        tokensFound := usage
        uniqueTokens := found.1.length
        mostUsedToken := (found.1.head?.map (·.tokenName)).getD ""
        coveragePercentage := share
        tokensByTier := found.2 }
    durationMs := w.scanMilliseconds }

theorem resultOf_eq_map (s : Scanner) (r : Repository) (w : World) (complaints : List String)
    (files : List SourceFile) :
    s.resultOf r w complaints files =
      (s.tokensIn (readable files)).map (s.report r w complaints files) := by
  unfold resultOf summarize tokensIn readable
  dsimp only [bind, Except.bind]
  rcases s.usagesIn (files.filterMap SourceFile.readable?) with e | us
  · rfl
  dsimp only
  rcases Usage.tierTotals (Usage.aggregate us) with e | tiers <;> rfl

/-- What is discovered is read, and the tokens are those in the files that could be read. -/
theorem exists_resultIn_eq [Nesting.Room] {paths complaints : List String}
    (hdiscovered : outcome (s.discovery.discover w root) [] = (.ok paths, complaints)) :
    ∃ files, paths.mapM (SourceFile.read w root) = .ok files ∧
      s.resultIn r w root = (s.tokensIn (paths.filterMap (readableAt w root))).map
        (s.report r w complaints files) := by
  obtain ⟨files, hfiles⟩ := exists_mapM_eq_ok fun path (_ : path ∈ paths) =>
    SourceFile.exists_read w root path
  refine ⟨files, hfiles, ?_⟩
  unfold resultIn
  rw [hdiscovered]
  show (paths.mapM (SourceFile.read w root) >>= _) = _
  rw [hfiles, ← readable_of_mapM hfiles, ← resultOf_eq_map]
  rfl

end Scanner

end DesignTokens
