import DesignTokens.Proofs.Report.Totals
import DesignTokens.Proofs.Token.Merging

/-!
# The number of different tokens

A scan counts the tokens that it lists, and these are told apart by name and format. A report counts
names. So the report on one result shows the number that the result has exactly when the result
lists no name in two formats; a name that is found in two of them counts twice for the result and
once for the report. However that is, the report on several results never shows more than they have
together, nor less than the report on one of them.
-/

namespace DesignTokens

namespace ScanResult

variable {r : ScanResult}

/-- The names of the tokens that a result lists. -/
def names (r : ScanResult) : List String := r.tokensFound.map (·.tokenName)

/-- No name is listed in two formats. -/
def NamesOnce (r : ScanResult) : Prop :=
  ∀ u ∈ r.tokensFound, ∀ v ∈ r.tokensFound, u.tokenName = v.tokenName → u.tokenType = v.tokenType

/-- A result counts the tokens that it lists, each name in each format once. -/
structure CountsListed (r : ScanResult) : Prop where
  keys : (r.tokensFound.map Usage.key).Nodup
  counted : r.summary.uniqueTokens = r.names.length

/-- Where each name is listed once in each format, no name is listed in two formats exactly when no
name is listed twice. -/
theorem CountsListed.namesOnce_iff (h : r.CountsListed) : r.NamesOnce ↔ r.names.Nodup := by
  have htokens : r.tokensFound.Nodup := List.Nodup.of_map _ h.keys
  constructor
  · intro honce
    refine List.Nodup.map_on (fun u hu v hv hname => ?_) htokens
    exact List.inj_on_of_nodup_map h.keys hu hv (Prod.ext hname (honce u hu v hv hname))
  · intro hnames u hu v hv hname
    rw [List.inj_on_of_nodup_map hnames hu hv hname]

end ScanResult

namespace Report

open ReportSummary

variable {results : List ScanResult} {r : ScanResult} {now : Timestamp} {report single : Report}

theorem uniqueTokens_of_ofResults (h : ofResults now results = .ok report) :
    report.uniqueTokens = (results.flatMap ScanResult.names).eraseDups.length := by
  obtain ⟨teams, mean, -, -, rfl⟩ := ofResults_eq_ok_iff.mp h
  dsimp only
  rw [usagesOf, List.map_flatMap]
  rfl

/-- The report on one result shows its number exactly when no name is in two formats. -/
theorem uniqueTokens_eq_iff (hr : r.CountsListed) (h : ofResults now [r] = .ok single) :
    (single.uniqueTokens : Int) = r.summary.uniqueTokens ↔ r.NamesOnce := by
  rw [uniqueTokens_of_ofResults h, List.flatMap_singleton, hr.counted, Int.natCast_inj,
    length_eraseDups_eq_iff, hr.namesOnce_iff]

/-- A report never shows more tokens than the results have together. -/
theorem uniqueTokens_le_sum (hresults : ∀ r ∈ results, r.CountsListed)
    (h : ofResults now results = .ok report) :
    (report.uniqueTokens : Int) ≤ sumOf (results.map (·.summary.uniqueTokens)) := by
  have hsum : sumOf (results.map (·.summary.uniqueTokens)) =
      (results.flatMap ScanResult.names).length := by
    rw [← sumOf_map_length]
    exact congrArg sumOf (List.map_congr_left fun r hr => (hresults r hr).counted)
  rw [hsum, uniqueTokens_of_ofResults h, Int.ofNat_le]
  exact (eraseDups_sublist _).length_le

/-- Nor does it show less than the report on one of them. -/
theorem uniqueTokens_le_of_mem (hr : r ∈ results) (h : ofResults now results = .ok report)
    (hsingle : ofResults now [r] = .ok single) : single.uniqueTokens ≤ report.uniqueTokens := by
  rw [uniqueTokens_of_ofResults h, uniqueTokens_of_ofResults hsingle]
  refine length_eraseDups_le_of_subset fun name hname => ?_
  rw [List.flatMap_singleton] at hname
  exact List.mem_flatMap.mpr ⟨r, hr, hname⟩

/-- The numbers of tokens that results and reports show agree. -/
structure AgreesOnTokens (now : Timestamp) (results : List ScanResult) : Prop where
  /-- The report on one result shows the number that the result has. -/
  single : ∀ r ∈ results, ∃ report, ofResults now [r] = .ok report ∧
    (report.uniqueTokens : Int) = r.summary.uniqueTokens
  /-- That on all of them shows no more than they have together, and no less than any of them. -/
  together : ∃ report, ofResults now results = .ok report ∧
    (report.uniqueTokens : Int) ≤ sumOf (results.map (·.summary.uniqueTokens)) ∧
    ∀ r ∈ results, r.summary.uniqueTokens ≤ report.uniqueTokens

/-- For results that count what they list they agree exactly when there are reports and no result
lists a name in two formats. -/
theorem agreesOnTokens_iff (hbalanced : ∀ r ∈ results, r.IsBalanced)
    (hresults : ∀ r ∈ results, r.CountsListed) (now : Timestamp) :
    AgreesOnTokens now results ↔ ∀ r ∈ results, (teamOf r).isKey = true ∧ r.NamesOnce := by
  have hsingle : ∀ r ∈ results,
      ((∃ report, ofResults now [r] = .ok report) ↔ (teamOf r).isKey = true) := by
    intro r hr
    rw [exists_ofResults_iff (List.forall_mem_singleton.mpr (hbalanced r hr)),
      List.forall_mem_singleton]
  constructor
  · intro h r hr
    obtain ⟨report, hreport, hequal⟩ := h.single r hr
    exact ⟨(hsingle r hr).mp ⟨report, hreport⟩,
      (uniqueTokens_eq_iff (hresults r hr) hreport).mp hequal⟩
  · intro h
    have hones : ∀ r ∈ results, ∃ report, ofResults now [r] = .ok report ∧
        (report.uniqueTokens : Int) = r.summary.uniqueTokens := by
      intro r hr
      obtain ⟨report, hreport⟩ := (hsingle r hr).mpr (h r hr).1
      exact ⟨report, hreport, (uniqueTokens_eq_iff (hresults r hr) hreport).mpr (h r hr).2⟩
    obtain ⟨report, hreport⟩ : ∃ report, ofResults now results = .ok report :=
      (exists_ofResults_iff hbalanced).mpr fun r hr => (h r hr).1
    refine ⟨hones, report, hreport, uniqueTokens_le_sum hresults hreport, fun r hr => ?_⟩
    obtain ⟨one, hone, hequal⟩ := hones r hr
    rw [← hequal, Int.ofNat_le]
    exact uniqueTokens_le_of_mem hr hreport hone

end Report

namespace Scanner

open Report ReportSummary

variable {s : Scanner} {r : Repository} {rs : List Repository} {w w' : World}
  {result : ScanResult} {results : List ScanResult}

/-- What a scan gives for a repository counts what it lists. -/
theorem IsOutcome.countsListed [Nesting.Room] (h : IsOutcome s r result) : result.CountsListed := by
  cases h with
  | scanned hstages =>
    obtain ⟨us, hsums⟩ := exists_sums hstages.summed
    refine ⟨hsums.isConserved.keys, ?_⟩
    obtain ⟨us', -, hsummed⟩ := bind_eq_ok_iff.mp hstages.summed
    obtain ⟨summary, hsummary, hsummed⟩ := bind_eq_ok_iff.mp hsummed
    obtain ⟨tiers, -, hsummary⟩ := bind_eq_ok_iff.mp hsummary
    obtain rfl := Except.ok.inj hsummary
    obtain rfl := Except.ok.inj hsummed
    simp [ScanResult.names]
  | failed hunavailable now => exact ⟨List.nodup_nil, rfl⟩

/-- For the results of a scan the numbers of tokens agree exactly when every team can be a key and
no result lists a name in two formats. In every case a report shows no more than its results have
together, and no less than the report on one of them. -/
theorem agreesOnTokens_iff_of_scanAll [Nesting.Room]
    (h : outcome (s.scanAll rs) w = (.ok results, w'))
    (now : Timestamp) :
    (AgreesOnTokens now results ↔
        ∀ result ∈ results, (teamOf result).isKey = true ∧ result.NamesOnce) ∧
      ∀ report, ofResults now results = .ok report →
        (report.uniqueTokens : Int) ≤ sumOf (results.map (·.summary.uniqueTokens)) ∧
          ∀ result ∈ results, ∀ single, ofResults now [result] = .ok single →
            single.uniqueTokens ≤ report.uniqueTokens := by
  have hlisted : ∀ result ∈ results, result.CountsListed := by
    intro result hresult
    obtain ⟨r, hr⟩ := isOutcome_of_scanAll h result hresult
    exact hr.countsListed
  refine ⟨agreesOnTokens_iff (isBalanced_of_scanAll h) hlisted now, fun report hreport => ?_⟩
  exact ⟨uniqueTokens_le_sum hlisted hreport, fun result hresult single hsingle =>
    uniqueTokens_le_of_mem hresult hreport hsingle⟩

attribute [local instance] Nesting.Room.ample

/-- A directory that is not there, and one with a stylesheet that uses one token. -/
theorem agreesOnTokens_goneAndRepo : ∃ results w',
    outcome (shelving.scanAll goneAndRepo) (World.ofFiles oneStylesheet) = (.ok results, w') ∧
      results.length = 2 ∧ AgreesOnTokens default results := by
  have hscan : (outcome (shelving.scanAll goneAndRepo)
      (World.ofFiles oneStylesheet)).1.toOption.map (fun results =>
        results.map fun r => (r.names, (teamOf r).isKey)) = some [([], true), (["a"], true)] := by
    decide +kernel
  obtain ⟨results, hresults, hfound⟩ := Option.map_eq_some_iff.mp hscan
  obtain ⟨w', h⟩ := exists_outcome_of_toOption hresults
  have htwo : results.length = 2 := by simpa using congrArg List.length hfound
  refine ⟨results, w', h, htwo, (agreesOnTokens_iff_of_scanAll h default).1.mpr ?_⟩
  intro result hresult
  have hmem : (result.names, (teamOf result).isKey) ∈ [([], true), (["a"], true)] :=
    hfound ▸ List.mem_map_of_mem hresult
  obtain ⟨r, hr⟩ := isOutcome_of_scanAll h result hresult
  rw [hr.countsListed.namesOnce_iff]
  rcases List.mem_pair.mp hmem with heq | heq <;> obtain ⟨hname, hkey⟩ := Prod.mk.inj heq
  · exact ⟨hkey, hname ▸ List.nodup_nil⟩
  · exact ⟨hkey, hname ▸ List.nodup_singleton "a"⟩

/-- A repository with a stylesheet that uses a token as a property and as a variable. -/
def bothFormats : FileTree :=
  ⟨[(["repo"], .directory),
    (["repo", "a.scss"], .file (Text.Utf8.encode "$x:var(--x)".toList))]⟩

/-- The stylesheet as it is read. -/
def readBothFormats : SourceFile := ⟨"a.scss", .ok "$x:var(--x)"⟩

theorem discover_bothFormats :
    outcome ((general ["*.scss"]).discovery.discover (World.ofFiles bothFormats) "/repo") [] =
      (.ok ["/repo/a.scss"], []) := by
  have hroot : Discovery.openRoot (World.ofFiles bothFormats) "/repo" = .ok ("/repo", ["repo"]) :=
    rfl
  have hways : (general ["*.scss"]).discovery.includePatterns.mapM
      (Discovery.waysOfPattern bothFormats "/repo" ["repo"]) = .ok [[["a.scss"]]] := rfl
  refine Discovery.outcome_discover_of_sorted hroot hways ?_ (by decide +kernel) (by decide)
  show ∀ way ∈ [["a.scss"]], _
  exact List.forall_mem_singleton.mpr ⟨true, rfl⟩

theorem read_bothFormats :
    SourceFile.read (World.ofFiles bothFormats) "/repo" "/repo/a.scss" = .ok readBothFormats := by
  have htext : ((World.ofFiles bothFormats).textOf "/repo/a.scss").toOption =
      some "$x:var(--x)" := by
    decide +kernel
  have hplace : PathText.relative (PathText.absolute "/" "/repo/a.scss")
      (PathText.absolute "/" "/repo") = "a.scss" := by
    decide +kernel
  have hworking : (World.ofFiles bothFormats).workingDirectory = "/" := rfl
  unfold SourceFile.read readBothFormats
  simp only [eq_ok_of_toOption htext, hworking, hplace]

/-- The scan of the repository lists the name in two formats. -/
theorem exists_stages_bothFormats : ∃ result,
    Stages (general ["*.scss"]) (Repository.ofDirectory "/repo" "repo") (World.ofFiles bothFormats)
      "/repo" (World.ofFiles bothFormats) ["/repo/a.scss"] [] [readBothFormats] result ∧
      ¬ result.NamesOnce := by
  have husages : ((general ["*.scss"]).usagesIn
      ([readBothFormats].filterMap SourceFile.readable?)).toOption.map
      (List.map fun u => (u.key, u.tier.isKey)) =
        some [(("x", "css-variables"), true), (("x", "scss-variables"), true)] := by
    decide +kernel
  obtain ⟨us, hus, htold⟩ := Option.map_eq_some_iff.mp husages
  have hus := eq_ok_of_toOption hus
  have htiers : ∀ u ∈ us, u.tier.isKey = true := by
    intro u hu
    have hmem := htold ▸ List.mem_map_of_mem (f := fun u : Usage => (u.key, u.tier.isKey)) hu
    simp only [List.mem_pair, Prod.mk.injEq] at hmem
    exact hmem.elim And.right And.right
  have hkeys : us.map Usage.key = [("x", "css-variables"), ("x", "scss-variables")] := by
    have hfirst := congrArg (List.map Prod.fst) htold
    rwa [List.map_map] at hfirst
  obtain ⟨result, hresult⟩ := exists_result_of_usagesIn hus htiers
    (Repository.ofDirectory "/repo" "repo") (World.ofFiles bothFormats) []
  have hstages : Stages (general ["*.scss"]) (Repository.ofDirectory "/repo" "repo")
      (World.ofFiles bothFormats) "/repo" (World.ofFiles bothFormats) ["/repo/a.scss"] []
      [readBothFormats] result := by
    constructor
    case prepared => rfl
    case discovered => exact discover_bothFormats
    case read => exact mapM_eq_ok_iff.mpr (.cons read_bothFormats .nil)
    case summed => exact hresult
  refine ⟨result, hstages, fun honce => ?_⟩
  obtain ⟨us', hsums⟩ := exists_sums hresult
  obtain rfl := Except.ok.inj (hus.symm.trans hsums.usages)
  have hlisted : ∀ token ∈ us.map Usage.key, ∃ u ∈ result.tokensFound, u.key = token := by
    intro token htoken
    rw [hsums.tokens]
    exact List.mem_map.mp ((Usage.isGroupedSum_aggregate us).mem_keys token |>.mpr htoken)
  rw [hkeys, List.forall_mem_cons, List.forall_mem_singleton] at hlisted
  obtain ⟨⟨u, hu, hukey⟩, v, hv, hvkey⟩ := hlisted
  obtain ⟨hname, htype⟩ := Prod.mk.inj hukey
  obtain ⟨hname', htype'⟩ := Prod.mk.inj hvkey
  have hsame := honce u hu v hv (hname.trans hname'.symm)
  rw [htype, htype'] at hsame
  exact absurd hsame (by decide)

/-- The token counts twice for the scan and once for the report. -/
theorem not_forall_agreesOnTokens :
    ¬∀ (s : Scanner) (r : Repository) (w w' : World) (result : ScanResult),
      outcome (s.scan r) w = (.ok result, w') → AgreesOnTokens w'.now [result] := by
  intro hall
  obtain ⟨result, hstages, htwice⟩ := exists_stages_bothFormats
  obtain ⟨w', hscan⟩ := hstages.exists_outcome rfl
  have hiff := agreesOnTokens_iff (List.forall_mem_singleton.mpr hstages.isBalanced)
    (List.forall_mem_singleton.mpr (IsOutcome.scanned hstages).countsListed) w'.now
  exact htwice (hiff.mp (hall _ _ _ _ _ hscan) result (List.mem_singleton_self result)).2

end Scanner

end DesignTokens
