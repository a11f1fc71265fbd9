import DesignTokens.History.Overview
import DesignTokens.Proofs.Files.PathText
import DesignTokens.Proofs.Terminal.Emphasis
import DesignTokens.Report.Overview

/-!
# Marked overviews

The overviews of scans and of commits are items line after line, each with at most one part in a
style. Each of them has a colored item, so marking leaves a marker without a partner in either: the
rule under the title of the overview of scans, and the hash of the first commit or the sentence
that there is none.
-/

namespace DesignTokens

open Terminal

/-! ## Plain records -/

/-- What is shown of a result has no asterisk and begins no sequence. -/
structure ScanResult.IsPlain (r : ScanResult) : Prop where
  name : Terminal.IsPlain r.repository.name.displayString
  mostUsed : Terminal.IsPlain r.summary.mostUsedToken
  tiers : ∀ t ∈ r.summary.tokensByTier, Terminal.IsPlain t.1.displayString
  patterns : ∀ p ∈ r.patterns, Terminal.IsPlain p.name
  errors : ∀ e ∈ r.errors, Terminal.IsPlain e

/-- The texts of a token change have no asterisk and begin no sequence. -/
structure TokenChange.IsPlain (c : TokenChange) : Prop where
  name : Terminal.IsPlain c.tokenName
  old : ∀ value ∈ c.oldValue, Terminal.IsPlain value
  new : ∀ value ∈ c.newValue, Terminal.IsPlain value

/-- The texts of a commit have no asterisk and begin no sequence. -/
structure Commit.IsPlain (c : Commit) : Prop where
  hash : Terminal.IsPlain c.hash
  author : Terminal.IsPlain c.author
  date : Terminal.IsPlain c.date
  message : Terminal.IsPlain c.message
  files : ∀ change ∈ c.changes, Terminal.IsPlain change.file
  tokens : ∀ change ∈ c.changes, ∀ t ∈ change.tokenChanges.getD [], TokenChange.IsPlain t

/-- The texts of a record that are shown have no asterisk and begin no sequence. -/
structure ChangeRecord.IsPlain (r : ChangeRecord) : Prop where
  name : Terminal.IsPlain r.tokenName
  category : Terminal.IsPlain r.category
  old : ∀ value ∈ r.oldValue, Terminal.IsPlain value
  new : ∀ value ∈ r.newValue, Terminal.IsPlain value

/-! ## Items of the overview of scans -/

namespace ScanResult

/-- The items of the overview. -/
def overviewItems (results : List ScanResult) : List String :=
  overviewHeading ++
    (if results.isEmpty then [paint yellow "No repositories scanned."]
      else results.flatMap overviewLines)

/-- The line about tiers is an item. -/
theorem isItem_of_mem_tierLines {s : ScanSummary}
    (h : ∀ t ∈ s.tokensByTier, Terminal.IsPlain t.1.displayString) :
    ∀ item ∈ tierLines s, IsItem item := by
  intro item hitem
  unfold tierLines at hitem
  split at hitem
  · cases hitem
  · obtain rfl := List.mem_singleton.mp hitem
    refine .plain (isPlain_append_iff.mpr ⟨by decide, isPlain_intercalate (by decide) ?_⟩)
    intro count hcount
    obtain ⟨t, ht, rfl⟩ := List.mem_map.mp hcount
    simp only [isPlain_append_iff, isPlain_toString, and_true]
    exact ⟨h t ht, by decide⟩

/-- A line about a pattern is an item. -/
theorem isItem_patternLine {p : UiPattern} (h : Terminal.IsPlain p.name) :
    IsItem (patternLine p) := by
  have hword : Terminal.IsPlain p.complexity.word := by cases p.complexity <;> decide
  refine .plain ?_
  unfold patternLine
  simp only [isPlain_append_iff, isPlain_toString, h, hword, and_true]
  decide

/-- The lines about errors are items. -/
theorem isItem_of_mem_errorLines {errors : List String} (h : ∀ e ∈ errors, Terminal.IsPlain e) :
    ∀ item ∈ errorLines errors, IsItem item := by
  unfold errorLines
  split
  · exact nofun
  · refine List.forall_mem_cons.mpr ⟨?_, List.forall_mem_append.mpr ⟨fun item hitem => ?_, ?_⟩⟩
    · refine .alone .red (by decide) ?_
      simp only [isPlain_append_iff, isPlain_toString_nat, and_true]
      decide
    · obtain ⟨e, he, rfl⟩ := List.mem_map.mp hitem
      exact .plain (isPlain_append_iff.mpr ⟨by decide, h e (List.mem_of_mem_take he)⟩)
    · split
      · refine List.forall_mem_singleton.mpr (.plain ?_)
        simp only [isPlain_append_iff, isPlain_toString_nat, and_true]
        decide
      · exact nofun

/-- The lines about a scan are items if its texts are plain. -/
theorem isItem_of_mem_overviewLines {r : ScanResult} (h : r.IsPlain) :
    ∀ item ∈ r.overviewLines, IsItem item := by
  have hname : IsItem ("\n" ++ paint bold ("📂 " ++ r.repository.name.displayString)) :=
    .ending .bold (by decide) (by decide) (isPlain_append_iff.mpr ⟨by decide, h.name⟩)
  have hfiles : Terminal.IsPlain ("Files: " ++ toString r.summary.scannedFiles ++ "/" ++
      toString r.summary.totalFiles ++ " scanned") := by
    simp only [isPlain_append_iff, isPlain_toString, and_true]
    decide
  have husages : Terminal.IsPlain ("Token usages: " ++ toString r.totalUsage ++ " (" ++
      toString r.summary.uniqueTokens ++ " unique)") := by
    simp only [isPlain_append_iff, isPlain_toString, and_true]
    decide
  have hcoverage : Terminal.IsPlain ("Coverage: " ++ toString r.coverage ++ "%") := by
    simp only [isPlain_append_iff, isPlain_toString, and_true]
    decide
  have hmost : ∀ item ∈ (if r.summary.mostUsedToken = "" then []
      else ["Most used token: " ++ r.summary.mostUsedToken]), IsItem item := by
    split
    · exact nofun
    · exact List.forall_mem_singleton.mpr (.plain (isPlain_append_iff.mpr ⟨by decide, h.mostUsed⟩))
  have hpatterns : ∀ item ∈ (r.patterns.take shownPatterns).map patternLine, IsItem item := by
    intro item hitem
    obtain ⟨p, hp, rfl⟩ := List.mem_map.mp hitem
    exact isItem_patternLine (h.patterns p (List.mem_of_mem_take hp))
  unfold overviewLines
  simp only [List.forall_mem_append, List.forall_mem_cons]
  exact ⟨⟨⟨⟨⟨hname, .plain hfiles, .plain husages, .plain hcoverage, nofun⟩, hmost⟩,
    isItem_of_mem_tierLines h.tiers⟩, hpatterns⟩, isItem_of_mem_errorLines h.errors⟩

/-- The overview of plain scans is made of items. -/
theorem isItem_of_mem_overviewItems {results : List ScanResult}
    (h : ∀ r ∈ results, r.IsPlain) : ∀ item ∈ overviewItems results, IsItem item := by
  refine List.forall_mem_append.mpr ⟨?_, ?_⟩
  · exact List.forall_mem_cons.mpr ⟨.ending .bold (by decide) (by decide) (by decide),
      List.forall_mem_singleton.mpr (.alone .grey (by decide) (by decide))⟩
  · split
    · exact List.forall_mem_singleton.mpr (.alone .yellow (by decide) (by decide))
    · intro item hitem
      obtain ⟨r, hr, hline⟩ := List.mem_flatMap.mp hitem
      exact isItem_of_mem_overviewLines (h r hr) item hline

/-- The rule under the title is colored. -/
theorem exists_colored (results : List ScanResult) :
    ∃ item ∈ overviewItems results, ¬IsColorless item := by
  refine ⟨paint grey "================================",
    List.mem_append_left _ (List.mem_cons_of_mem _ List.mem_cons_self), fun h => ?_⟩
  exact absurd (h .grey rfl) (by decide)

/-- The overview of plain scans has its items marked. -/
theorem marksItems_overview {results : List ScanResult} (h : ∀ r ∈ results, r.IsPlain) :
    MarksItems (overviewItems results) (overviewAs false results) (overviewAs true results) :=
  marksItems_intercalate (isItem_of_mem_overviewItems h) (exists_colored results)

end ScanResult

/-! ## Items of the overview of commits -/

/-- The category of a file is plain. -/
theorem TokenFile.isPlain_category (path : String) : IsPlain (category path) := by
  have hhints : ∀ hint ∈ hints, IsPlain hint.2 := by decide
  unfold category
  dsimp only
  split
  · rename_i hint hfound
    exact hhints hint (List.mem_of_find?_eq_some hfound)
  · decide

namespace ChangeRecord

/-- The record of a new file is plain if the path is. -/
theorem isPlain_ofNewFile (c : Commit) {file : String} (h : Terminal.IsPlain file) :
    (ofNewFile c file).IsPlain := by
  have hstem : Terminal.IsPlain (PathText.stem file) :=
    isPlain_of_mem h fun _ hc => PathText.mem_of_mem_stem hc
  unfold ofNewFile
  constructor <;> dsimp only
  · exact hstem
  · exact TokenFile.isPlain_category file
  · exact nofun
  · intro value hvalue
    obtain rfl := Option.some.inj hvalue
    decide

/-- The records of plain commits are plain. -/
theorem isPlain_of_mem_ofCommits {commits : List Commit} (h : ∀ c ∈ commits, c.IsPlain) :
    ∀ r ∈ ofCommits commits, r.IsPlain := by
  intro r hr
  obtain ⟨c, hc, hr⟩ := List.mem_flatMap.mp hr
  obtain ⟨change, hchange, hr⟩ := List.mem_flatMap.mp hr
  have hfile := (h c hc).files change hchange
  have htokens := (h c hc).tokens change hchange
  unfold ofFileChange at hr
  split at hr
  · split at hr
    · obtain rfl := List.mem_singleton.mp hr
      exact isPlain_ofNewFile c hfile
    · cases hr
  · obtain ⟨t, ht, rfl⟩ := List.mem_map.mp hr
    obtain ⟨hname, hold, hnew⟩ := htokens t ht
    exact ⟨hname, TokenFile.isPlain_category _, hold, hnew⟩

/-- What a plain record says about its change is plain. -/
theorem IsPlain.detail {r : ChangeRecord} (h : r.IsPlain) : Terminal.IsPlain r.detail := by
  have hvalue : ∀ value : Option String, (∀ v ∈ value, Terminal.IsPlain v) →
      Terminal.IsPlain (value.getD "") := by
    intro value hplain
    cases value with
    | none => exact (by decide : Terminal.IsPlain "")
    | some v => exact hplain v rfl
  have hold := hvalue _ h.old
  have hnew := hvalue _ h.new
  unfold ChangeRecord.detail
  split
  · exact isPlain_append_iff.mpr ⟨isPlain_append_iff.mpr ⟨hold, by decide⟩, hnew⟩
  · split
    · exact hold
    · exact hnew

/-- The line about a plain record is an item. -/
theorem isItem_overviewLine {r : ChangeRecord} (h : r.IsPlain) : IsItem r.overviewLine := by
  have hword : Terminal.IsPlain (padded r.kind.word) := by cases r.kind <;> decide
  have hpainted : IsItem ("  " ++ paint (if r.severity = "warning" then yellow else grey)
      (padded r.kind.word)) := by
    split
    · exact .ending .yellow (by decide) (by decide) hword
    · exact .ending .grey (by decide) (by decide) hword
  unfold overviewLine
  exact (((((hpainted.append (by decide)).append h.name).append (by decide)).append
    h.detail).append (by decide)).append h.category |>.append (by decide)

end ChangeRecord

namespace Commit

/-- The items of the overview. -/
def overviewItems (commits : List Commit) : List String :=
  if commits.isEmpty then ["\n" ++ paint green "✅ No token changes detected."]
  else
    ("\n" ++ paint bold ("🔄 Token Changes: " ++ toString commits.length ++ " commits")) ::
      (commits.flatMap overviewLines ++ recordLines (ChangeRecord.ofCommits commits))

/-- The overview of commits is its items on lines of their own. -/
theorem overview_eq (commits : List Commit) :
    overview commits = String.intercalate "\n" (overviewItems commits) := by
  unfold overview overviewItems
  split
  · rw [String.intercalate_singleton]
  · rfl

/-- The short hash of a plain commit is plain. -/
theorem IsPlain.shortHash {c : Commit} (h : c.IsPlain) : Terminal.IsPlain c.shortHash := by
  refine isPlain_of_mem h.hash fun d hd => ?_
  rw [Commit.shortHash, String.toList_ofList] at hd
  exact List.mem_of_mem_take hd

/-- The item on a commit itself has its hash in a color. -/
theorem overviewLine_eq (c : Commit) :
    "\n" ++ paint grey c.shortHash ++ " " ++ c.message ++ " (" ++ c.author ++ ", " ++ c.date ++
        ")" =
      "\n" ++ paint Style.grey.sequence c.shortHash ++
        (" " ++ c.message ++ " (" ++ c.author ++ ", " ++ c.date ++ ")") := by
  simp only [String.append_assoc]
  rfl

/-- What is said about a plain commit is plain. -/
theorem isPlain_aboutCommit {c : Commit} (h : c.IsPlain) :
    Terminal.IsPlain (" " ++ c.message ++ " (" ++ c.author ++ ", " ++ c.date ++ ")") := by
  simp only [isPlain_append_iff, h.message, h.author, h.date, and_true]
  decide

/-- The lines about a plain commit are items. -/
theorem isItem_of_mem_overviewLines {c : Commit} (h : c.IsPlain) :
    ∀ item ∈ c.overviewLines, IsItem item := by
  refine List.forall_mem_cons.mpr ⟨?_, fun item hitem => ?_⟩
  · rw [overviewLine_eq]
    exact .painted .grey (by decide) (by decide) h.shortHash (isPlain_aboutCommit h)
  · obtain ⟨change, hchange, rfl⟩ := List.mem_map.mp hitem
    have hword : Terminal.IsPlain change.kind.word := by cases change.kind <;> decide
    refine .plain ?_
    simp only [isPlain_append_iff, hword, h.files change hchange, and_true]
    decide

/-- The overview of plain commits is made of items. -/
theorem isItem_of_mem_overviewItems {commits : List Commit} (h : ∀ c ∈ commits, c.IsPlain) :
    ∀ item ∈ overviewItems commits, IsItem item := by
  unfold overviewItems
  split
  · exact List.forall_mem_singleton.mpr (.ending .green (by decide) (by decide) (by decide))
  · refine List.forall_mem_cons.mpr ⟨?_, List.forall_mem_append.mpr ⟨fun item hitem => ?_, ?_⟩⟩
    · refine .ending .bold (by decide) (by decide) ?_
      simp only [isPlain_append_iff, isPlain_toString_nat, and_true]
      decide
    · obtain ⟨c, hc, hline⟩ := List.mem_flatMap.mp hitem
      exact isItem_of_mem_overviewLines (h c hc) item hline
    · unfold recordLines
      split
      · exact nofun
      · refine List.forall_mem_cons.mpr ⟨?_, fun item hitem => ?_⟩
        · exact .ending .bold (by decide) (by decide) (by decide)
        · obtain ⟨r, hr, rfl⟩ := List.mem_map.mp hitem
          exact ChangeRecord.isItem_overviewLine (ChangeRecord.isPlain_of_mem_ofCommits h r hr)

/-- The first item on a commit is colored, and so is the one without any. -/
theorem exists_colored {commits : List Commit} (h : ∀ c ∈ commits, c.IsPlain) :
    ∃ item ∈ overviewItems commits, ¬IsColorless item := by
  cases commits with
  | nil =>
    refine ⟨_, List.mem_singleton_self _, fun hcolorless => ?_⟩
    exact absurd (hcolorless .green rfl) (by decide)
  | cons c commits =>
    have hc := h c List.mem_cons_self
    refine ⟨_, List.mem_cons_of_mem _ (List.mem_append_left _ (List.mem_flatMap.mpr
      ⟨c, List.mem_cons_self, List.mem_cons_self⟩)), fun hcolorless => ?_⟩
    rw [overviewLine_eq, isColorless_painted_iff (by decide) hc.shortHash
      (isPlain_aboutCommit hc)] at hcolorless
    cases hcolorless

/-- The overview of plain commits has its items marked. -/
theorem marksItems_overview {commits : List Commit} (h : ∀ c ∈ commits, c.IsPlain) :
    MarksItems (overviewItems commits) (overviewAs false commits) (overviewAs true commits) := by
  have hmarks := marksItems_intercalate (isItem_of_mem_overviewItems h) (exists_colored h)
  rwa [← overview_eq] at hmarks

end Commit

/-! ## Both overviews -/

/-- Either overview is marked item by item and keeps what it says, but never has its markers in
pairs on every line. -/
theorem marksItems_overviews {results : List ScanResult} {commits : List Commit}
    (hresults : ∀ r ∈ results, r.IsPlain) (hcommits : ∀ c ∈ commits, c.IsPlain) :
    MarksItems (ScanResult.overviewItems results) (ScanResult.overviewAs false results)
        (ScanResult.overviewAs true results) ∧
      MarksItems (Commit.overviewItems commits) (Commit.overviewAs false commits)
        (Commit.overviewAs true commits) :=
  ⟨ScanResult.marksItems_overview hresults, Commit.marksItems_overview hcommits⟩

/-- The result on a repository where one token is used and two files could not be read. -/
def ScanResult.withErrors : ScanResult :=
  { (default : ScanResult) with
    repository := .ofDirectory "web" "web"
    errors := ["a.css: permission denied", "b.css: permission denied"]
    summary := { (default : ScanSummary) with
      mostUsedToken := "gap"
      tokensByTier := [(.text "raw", 1)] } }

/-- A commit in which a token gets another value. -/
def Commit.ofGap : Commit :=
  { (default : Commit) with
    hash := "0123456789abcdef"
    message := "Wider gap"
    changes := [⟨.modified, "tokens.scss", none, some [⟨"$gap", 1, some "4px", some "8px"⟩]⟩] }

/-- The overviews of a result and of a commit. -/
theorem marksItems_withErrors_ofGap :
    (∀ r ∈ [ScanResult.withErrors], r.IsPlain) ∧ (∀ c ∈ [Commit.ofGap], c.IsPlain) ∧
      MarksItems (ScanResult.overviewItems [ScanResult.withErrors])
        (ScanResult.overviewAs false [ScanResult.withErrors])
        (ScanResult.overviewAs true [ScanResult.withErrors]) ∧
      MarksItems (Commit.overviewItems [Commit.ofGap]) (Commit.overviewAs false [Commit.ofGap])
        (Commit.overviewAs true [Commit.ofGap]) := by
  have hresults : ∀ r ∈ [ScanResult.withErrors], r.IsPlain :=
    List.forall_mem_singleton.mpr ⟨by decide, by decide, by decide, nofun, by decide⟩
  have hcommits : ∀ c ∈ [Commit.ofGap], c.IsPlain := by
    refine List.forall_mem_singleton.mpr
      ⟨by decide, by decide, by decide, by decide, by decide, ?_⟩
    rintro change hchange t ht
    obtain rfl := List.mem_singleton.mp hchange
    obtain rfl := List.mem_singleton.mp ht
    refine ⟨by decide, fun value hvalue => ?_, fun value hvalue => ?_⟩
    · obtain rfl := Option.some.inj hvalue
      decide
    · obtain rfl := Option.some.inj hvalue
      decide
  exact ⟨hresults, hcommits, marksItems_overviews hresults hcommits⟩

/-- The sentence that there is no change ends in a marker that nothing begins. -/
theorem not_forall_renders_overviews :
    ¬∀ (results : List ScanResult) (commits : List Commit),
      (∀ r ∈ results, r.IsPlain) → (∀ c ∈ commits, c.IsPlain) →
        Renders (ScanResult.overview results) (ScanResult.overviewAs true results) ∧
          Renders (Commit.overview commits) (Commit.overviewAs true commits) := by
  intro h
  obtain ⟨-, hrenders⟩ := h [] [] (List.forall_mem_nil _) (List.forall_mem_nil _)
  have hmarked : (Commit.overviewAs true []).toList =
      '\n' :: "✅ No token changes detected.**".toList := by decide +kernel
  have hlines := hrenders.balanced
  rw [hmarked] at hlines
  exact absurd (hlines "✅ No token changes detected.**".toList (by decide)) (by decide)

end DesignTokens
