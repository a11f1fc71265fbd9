import DesignTokens.Proofs.Files.Exact
import DesignTokens.Proofs.Files.Possible
import DesignTokens.Proofs.Token.Usage
import DesignTokens.Scan.Scanner

/-!
# The account of a scan

A scan that gives a result goes through four stages: its directory is prepared, files are
discovered, read, and summed up. The figures of the result are then all counts of the same
occurrences: those that the formats find in the files that could be read.
-/

namespace DesignTokens

namespace Scanner

variable {s : Scanner} {r : Repository} {w w' : World} {result : ScanResult}

/-- The stages of a scan: the directory and the world in which it is prepared, what is discovered
there, the files as they are read, and the result. -/
structure Stages [Nesting.Room] (s : Scanner) (r : Repository) (w : World) (directory : String)
    (w₁ : World)
    (paths complaints : List String) (files : List SourceFile) (result : ScanResult) : Prop where
  prepared : outcome (Checkout.prepare s.copies r) w = (.ok directory, w₁)
  discovered :
    outcome (s.discovery.discover w₁ (w₁.realPath directory)) [] = (.ok paths, complaints)
  read : paths.mapM (SourceFile.read w₁ (w₁.realPath directory)) = .ok files
  summed : s.resultOf r w₁ complaints files = .ok result

/-- A result comes from stages that all succeed. -/
theorem exists_stages [Nesting.Room] (h : outcome (s.scan r) w = (.ok result, w')) :
    ∃ directory w₁ paths complaints files,
      Stages s r w directory w₁ paths complaints files result := by
  unfold scan at h
  obtain ⟨directory, w₁, hprepared, h⟩ := exists_of_outcome_bind h
  have hrequire : outcome (Run.requirePath directory) w₁ = (.ok (), w₁) := by
    obtain ⟨_, w₂, hrequired, -⟩ := exists_of_outcome_bind h
    exact Run.outcome_requirePath (Run.isPossible_of_requirePath hrequired).1 w₁
  rw [outcome_bind_of_ok hrequire, outcome_bind_of_ok (outcome_get w₁)] at h
  rcases hdiscovered : outcome (s.discovery.discover w₁ (w₁.realPath directory)) [] with
    ⟨found, complaints⟩
  have hrun : (s.discovery.discover w₁ (w₁.realPath directory)).run.run [] = (found, complaints) :=
    hdiscovered
  simp only [hrun] at h
  obtain ⟨paths, w₂, hpaths, h⟩ := exists_of_outcome_bind h
  obtain ⟨-, w₃, -, h⟩ := exists_of_outcome_bind h
  obtain ⟨files, w₄, hfiles, h⟩ := exists_of_outcome_bind h
  obtain ⟨result', w₅, hresult, h⟩ := exists_of_outcome_bind h
  obtain ⟨-, w₆, -, h⟩ := exists_of_outcome_bind h
  rw [outcome_ofExcept] at hpaths hfiles hresult
  obtain ⟨rfl, rfl⟩ := Prod.mk.inj hpaths
  obtain ⟨hread, rfl⟩ := Prod.mk.inj hfiles
  obtain ⟨hsummed, rfl⟩ := Prod.mk.inj hresult
  obtain ⟨hsame, -⟩ := Prod.mk.inj h
  obtain rfl := Except.ok.inj hsame
  exact ⟨directory, w₁, paths, complaints, files, hprepared, hdiscovered, hread, hsummed⟩

/-- Stages that all succeed give their result. -/
theorem Stages.exists_outcome [Nesting.Room] {directory : String} {w₁ : World}
    {paths complaints : List String}
    {files : List SourceFile} (h : Stages s r w directory w₁ paths complaints files result)
    (hpath : outcome (Run.requirePath directory) w₁ = (.ok (), w₁)) :
    ∃ w', outcome (s.scan r) w = (.ok result, w') := by
  have hrun : (s.discovery.discover w₁ (w₁.realPath directory)).run.run [] =
      (.ok paths, complaints) := h.discovered
  unfold scan
  rw [outcome_bind_of_ok h.prepared, outcome_bind_of_ok hpath, outcome_bind_of_ok (outcome_get w₁)]
  simp only [hrun]
  rw [outcome_bind_of_ok (outcome_ofExcept (.ok paths) w₁), outcome_bind_of_ok (outcome_say _ w₁),
    h.read, outcome_bind_of_ok (outcome_ofExcept (.ok files) _), h.summed,
    outcome_bind_of_ok (outcome_ofExcept (.ok result) _), outcome_bind_of_ok (outcome_say _ _)]
  exact ⟨_, rfl⟩

/-- The occurrences that the formats find in files given by path and text. -/
def occurrencesIn (s : Scanner) (files : List (String × String)) : List Occurrence :=
  files.flatMap fun file => (s.formats.filter (·.appliesTo file.1)).flatMap fun f =>
    f.occurrences file.2 file.1 s.contextLength

/-- The usages in files hold the occurrences in them. -/
theorem of_usagesIn {files : List (String × String)} {us : List Usage}
    (h : s.usagesIn files = .ok us) :
    (∀ u ∈ us, u.IsExact) ∧ (us.flatMap (·.occurrences)).Perm (s.occurrencesIn files) := by
  obtain ⟨found, hfound, hflat⟩ := bind_eq_ok_iff.mp h
  obtain rfl := Except.ok.inj hflat
  constructor
  · intro u hu
    obtain ⟨us, hus, hu⟩ := List.mem_flatten.mp hu
    obtain ⟨file, -, hfile⟩ := (mem_iff_of_mapM hfound).mp hus
    exact (Usage.of_inFile hfile).1 u hu
  · rw [flatMap_flatten]
    exact perm_flatMap_of_forall₂ (mapM_eq_ok_iff.mp hfound) fun file us hfile =>
      (Usage.of_inFile hfile).2

/-- The files that could be read, by their paths in the repository, with their texts. -/
def readable (files : List SourceFile) : List (String × String) :=
  files.filterMap SourceFile.readable?

/-- A file has a text or a complaint. -/
theorem length_readable (files : List SourceFile) :
    (readable files).length + (files.filterMap SourceFile.complaint?).length =
      files.length := by
  unfold readable
  induction files with
  | nil => rfl
  | cons f files ih =>
    rw [List.filterMap_cons, List.filterMap_cons, List.length_cons]
    unfold SourceFile.readable? SourceFile.complaint? at *
    cases f.text with
    | ok text =>
      simp only [List.length_cons]
      omega
    | error complaint =>
      simp only [List.length_cons]
      omega

/-- The complaint about the file at a path, if it cannot be read. -/
def complaintAt (w : World) (path : String) : Option String :=
  match w.textOf path with
  | .ok _ => none
  | .error e => some ("Error scanning " ++ path ++ ": " ++ e.message)

theorem complaint?_of_read {root path : String} {f : SourceFile}
    (h : SourceFile.read w root path = .ok f) : f.complaint? = complaintAt w path := by
  unfold SourceFile.read at h
  unfold complaintAt
  dsimp only at h
  split at h
  next htext =>
    obtain rfl := Except.ok.inj h
    rw [htext]
    rfl
  next htext =>
    obtain rfl := Except.ok.inj h
    rw [htext]
    rfl
  next htext =>
    obtain rfl := Except.ok.inj h
    rw [htext]
    rfl
  next => cases h

/-- The complaints about files, path by path. -/
theorem complaints_of_mapM {root : String} {paths : List String} {files : List SourceFile}
    (h : paths.mapM (SourceFile.read w root) = .ok files) :
    files.filterMap SourceFile.complaint? = paths.filterMap (complaintAt w) :=
  filterMap_eq_of_mapM h fun _ _ => complaint?_of_read

/-- The figures of a result agree: each usage with its occurrences, the totals with the usages and
with the matches of the formats in the files that could be read. -/
structure IsConserved (s : Scanner) (files : List (String × String)) (result : ScanResult) :
    Prop where
  /-- A token is listed once for each format. -/
  keys : (result.tokensFound.map Usage.key).Nodup
  /-- Its count is the number of its occurrences, its files are theirs, in their order. -/
  usages : ∀ u ∈ result.tokensFound, u.IsExact
  total : result.totalUsage = result.summary.tokensFound
  counts : result.totalUsage = sumOf (result.tokensFound.map (·.totalCount))
  tiers : result.totalUsage = result.summary.tokensByTier.sum
  found : result.totalUsage = sumOf (files.map fun file =>
    sumOf ((s.formats.filter (·.appliesTo file.1)).map fun f =>
      ((f.occurrences file.2 file.1 s.contextLength).length : Int)))
  /-- The most used come first. -/
  order : result.tokensFound.Pairwise fun u v => v.totalCount ≤ u.totalCount
  mostUsed : result.tokensFound ≠ [] → ∃ u ∈ result.tokensFound,
    u.tokenName = result.summary.mostUsedToken ∧
      ∀ v ∈ result.tokensFound, v.totalCount ≤ u.totalCount

/-- What the last stage makes of the usages in the files. -/
structure Sums (s : Scanner) (files : List (String × String)) (us : List Usage)
    (result : ScanResult) : Prop where
  usages : s.usagesIn files = .ok us
  tokens : result.tokensFound = Usage.aggregate us
  tiers : Usage.tierTotals result.tokensFound = .ok result.summary.tokensByTier
  counts : result.summary.tokensFound = sumOf (result.tokensFound.map (·.totalCount))
  mostUsed : result.summary.mostUsedToken = (result.tokensFound.head?.map (·.tokenName)).getD ""
  total : result.totalUsage = result.summary.tokensFound

theorem exists_sums {complaints : List String} {files : List SourceFile}
    (h : s.resultOf r w complaints files = .ok result) :
    ∃ us, Sums s (readable files) us result := by
  obtain ⟨us, hus, h⟩ := bind_eq_ok_iff.mp h
  obtain ⟨summary, hsummary, h⟩ := bind_eq_ok_iff.mp h
  obtain ⟨tiers, htiers, hsummary⟩ := bind_eq_ok_iff.mp hsummary
  obtain rfl := Except.ok.inj hsummary
  obtain rfl := Except.ok.inj h
  exact ⟨us, hus, rfl, htiers, rfl, rfl, rfl⟩

namespace Sums

variable {files : List (String × String)} {us : List Usage}

/-- The occurrences of the tokens are those that the formats find in the files. -/
theorem perm_occurrences (h : Sums s files us result) :
    (result.tokensFound.flatMap (·.occurrences)).Perm (s.occurrencesIn files) := by
  rw [h.tokens]
  exact (Usage.perm_occurrences_aggregate us).trans (of_usagesIn h.usages).2

theorem isExact (h : Sums s files us result) : ∀ u ∈ result.tokensFound, u.IsExact := by
  rw [h.tokens]
  exact fun u hu => Usage.isExact_of_mem_aggregate (of_usagesIn h.usages).1 hu

/-- The counts are together the number of all matches. -/
theorem sum_counts (h : Sums s files us result) :
    sumOf (result.tokensFound.map (·.totalCount)) =
      sumOf (files.map fun file => sumOf ((s.formats.filter (·.appliesTo file.1)).map fun f =>
        ((f.occurrences file.2 file.1 s.contextLength).length : Int))) := by
  calc sumOf (result.tokensFound.map (·.totalCount))
      = sumOf (result.tokensFound.map fun u => (u.occurrences.length : Int)) := by
        rw [List.map_congr_left fun u hu => (h.isExact u hu).counted]
    _ = ((result.tokensFound.flatMap (·.occurrences)).length : Int) := sumOf_map_length _ _
    _ = ((s.occurrencesIn files).length : Int) := by rw [h.perm_occurrences.length_eq]
    _ = _ := by
        unfold occurrencesIn
        rw [← sumOf_map_length]
        simp only [← sumOf_map_length]

theorem isConserved (h : Sums s files us result) : IsConserved s files result := by
  have hcounts := h.total.trans h.counts
  constructor
  case keys =>
    rw [h.tokens]
    exact Usage.nodup_key_aggregate us
  case usages => exact h.isExact
  case total => exact h.total
  case counts => exact hcounts
  case tiers => rw [hcounts, Usage.sum_tierTotals h.tiers]
  case found => rw [hcounts, h.sum_counts]
  case order =>
    rw [h.tokens]
    exact Usage.pairwise_aggregate us
  case mostUsed =>
    intro hne
    have horder : result.tokensFound.Pairwise fun u v => v.totalCount ≤ u.totalCount := by
      rw [h.tokens]
      exact Usage.pairwise_aggregate us
    have hmost := h.mostUsed
    cases htokens : result.tokensFound with
    | nil => exact absurd htokens hne
    | cons top rest =>
      rw [htokens] at hmost horder
      refine ⟨top, List.mem_cons_self, hmost.symm, ?_⟩
      intro v hv
      rcases List.mem_cons.mp hv with rfl | hv
      · exact Int.le_refl _
      · exact (List.pairwise_cons.mp horder).1 v hv

end Sums

/-- The figures of the result of a scan agree with each other, and with what the formats match in
the files that are discovered and can be read. -/
theorem scan_isConserved [Nesting.Room] (h : outcome (s.scan r) w = (.ok result, w')) :
    ∃ directory w₁ paths complaints files,
      Stages s r w directory w₁ paths complaints files result ∧
        IsConserved s (readable files) result := by
  obtain ⟨directory, w₁, paths, complaints, files, hstages⟩ := exists_stages h
  obtain ⟨us, hsums⟩ := exists_sums hstages.summed
  exact ⟨directory, w₁, paths, complaints, files, hstages, hsums.isConserved⟩

/-- A scanner for the general formats that knows no tokens. -/
def general (included : List Spelling) : Scanner where
  formats := TokenFormat.general
  discovery := Discovery.ofPatterns included [] (some TokenFormat.general)
  categorizer := ⟨⟨[]⟩, []⟩
  copies := .null
  contextLength := Occurrence.defaultContext
  catalogSize := defaultCatalogSize

/-- A repository with one stylesheet, in which a token is referenced twice. -/
def oneStylesheet : FileTree :=
  ⟨[(["repo"], .directory),
    (["repo", "a.css"], .file (Text.Utf8.encode "a \x7b color: var(--a) var(--a) \x7d".toList))]⟩

attribute [local instance] Nesting.Room.ample

theorem scan_isConserved_oneStylesheet :
    ∃ result w', outcome ((general ["*.css"]).scan (Repository.ofDirectory "/repo" "repo"))
        (World.ofFiles oneStylesheet) = (.ok result, w') ∧ result.totalUsage = 2 ∧
      ∃ directory w₁ paths complaints files,
        Stages (general ["*.css"]) (Repository.ofDirectory "/repo" "repo")
          (World.ofFiles oneStylesheet) directory w₁ paths complaints files result ∧
          IsConserved (general ["*.css"]) (readable files) result := by
  have htotal : (outcome ((general ["*.css"]).scan (Repository.ofDirectory "/repo" "repo"))
      (World.ofFiles oneStylesheet)).1.toOption.map (·.totalUsage) = some 2 := by
    decide +kernel
  obtain ⟨result, hresult, htwo⟩ := Option.map_eq_some_iff.mp htotal
  obtain ⟨w', houtcome⟩ := exists_outcome_of_toOption hresult
  exact ⟨result, w', houtcome, htwo, scan_isConserved houtcome⟩

end Scanner

end DesignTokens
