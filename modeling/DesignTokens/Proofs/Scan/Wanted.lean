import DesignTokens.Proofs.Files.Wanted
import DesignTokens.Proofs.Scan.Answer

/-!
# The extensions of the formats

A scanner reads only files with an extension of one of its formats. That is a shortcut: a file that
is left out is one in which no format would search under its path below the root, so the tokens are
the same as those of a scan that reads every file.
-/

namespace DesignTokens

/-- The path below a root by which a file is searched. -/
def SourceFile.pathIn (w : World) (root path : String) : String :=
  PathText.relative (PathText.absolute w.workingDirectory path)
    (PathText.absolute w.workingDirectory root)

/-- Which files a format searches is decided by the extension. -/
theorem TokenFormat.appliesTo_congr {path other : String}
    (h : PathText.extension path = PathText.extension other) (f : TokenFormat) :
    f.appliesTo path = f.appliesTo other := by
  unfold appliesTo
  rw [h]

namespace Scanner

variable {s : Scanner} {r : Repository} {w w₁ : World} {directory root : String}

/-- Whether some format searches files with a path. -/
def searches (s : Scanner) (path : String) : Bool := s.formats.any (·.appliesTo path)

/-- The scanner that reads the files with an extension of its formats. -/
def restricted (s : Scanner) : Scanner :=
  { s with discovery :=
      { s.discovery with extensions := some (TokenFormat.extensionsOf s.formats) } }

/-- The scanner that reads files with any extension. -/
def unrestricted (s : Scanner) : Scanner := { s with discovery := s.discovery.unfiltered }

theorem isWanted_restricted (s : Scanner) (path : String) :
    s.restricted.discovery.isWanted path = s.searches path := by
  have hwanted := @Discovery.isWanted_ofPatterns [] [] (some s.formats) path
  have hsome : (∀ given ∈ some s.formats, ∃ f ∈ given, f.appliesTo path = true) ↔
      s.searches path = true := by
    simp [searches]
  exact Bool.eq_iff_iff.mpr (hwanted.trans hsome)

/-- Files in which no format searches have no tokens. -/
theorem tokensIn_filter_searches (s : Scanner) (files : List (String × String)) :
    s.tokensIn (files.filter fun file => s.searches file.1) = s.tokensIn files := by
  have hnothing : ∀ file ∈ files, s.searches file.1 = false →
      Usage.inFile s.formats file.2 file.1 s.contextLength (some s.categorizer) = .ok [] := by
    intro file _ hnone
    have hformats : s.formats.filter (·.appliesTo file.1) = [] := by
      rw [List.filter_eq_nil_iff]
      intro f hf hsearched
      exact Bool.eq_false_iff.mp hnone (List.any_eq_true.mpr ⟨f, hf, hsearched⟩)
    unfold Usage.inFile
    rw [hformats]
    rfl
  have hflat : ∀ files, s.usagesIn files = (files.mapM fun file =>
      Usage.inFile s.formats file.2 file.1 s.contextLength (some s.categorizer)).map
        List.flatten := by
    intro files
    unfold usagesIn
    rcases files.mapM fun file => _ with e | found <;> rfl
  unfold tokensIn
  rw [hflat, hflat, map_flatten_mapM_filter hnothing]

/-- A discovered file is wanted exactly when some format searches it by its path below the root. -/
theorem isWanted_iff_searches [Nesting.Room] {paths complaints : List String} (hw : w.Grounded)
    (hdiscovered : outcome (s.unrestricted.discovery.discover w (w.realPath directory)) [] =
      (.ok paths, complaints)) {p : String} (hp : p ∈ paths) :
    s.restricted.discovery.isWanted p =
      s.searches (SourceFile.pathIn w (w.realPath directory) p) := by
  obtain ⟨at_, hopen, hreal, hdirectory⟩ := Discovery.exists_openRoot_realPath hw hdiscovered
  have hall := Discovery.discovered_of_outcome hw hopen hdiscovered
  have hnames := hw.tree.isProper_of_isSome (FileTree.isSome_of_hasDirectory hdirectory)
  rw [hreal] at hall
  have hextension := hall.extension_relative_eq hw.tree hdirectory hp w.workingDirectory
  rw [isWanted_restricted, SourceFile.pathIn, hreal, PathText.absolute_rooted_of_isProper hnames]
  unfold searches
  simp only [TokenFormat.appliesTo_congr hextension]

/-- The restricted scanner discovers exactly those of all files that some format searches by their
path below the root. -/
theorem outcome_discover_restricted [Nesting.Room] {paths complaints : List String}
    (hw : w.Grounded)
    (hdiscovered : outcome (s.unrestricted.discovery.discover w (w.realPath directory)) [] =
      (.ok paths, complaints)) :
    outcome (s.restricted.discovery.discover w (w.realPath directory)) [] =
      (.ok (paths.filter fun p => s.searches (SourceFile.pathIn w (w.realPath directory) p)),
        complaints) := by
  have hall : s.restricted.discovery.unfiltered = s.unrestricted.discovery := rfl
  have hkept := List.filter_congr fun p hp => isWanted_iff_searches hw hdiscovered hp
  rw [Discovery.outcome_discover_eq_filter, hall, hdiscovered, ← hkept]
  rfl

/-- The files that can be read are left out by their path below the root. -/
theorem filterMap_readableAt_filter (p : String → Bool) (w : World) (root : String)
    (paths : List String) :
    (paths.filter fun path => p (SourceFile.pathIn w root path)).filterMap (readableAt w root) =
      (paths.filterMap (readableAt w root)).filter fun file => p file.1 := by
  rw [List.filterMap_filter, List.filter_filterMap]
  refine List.filterMap_congr fun path _ => ?_
  cases hread : readableAt w root path with
  | none => simp
  | some file =>
    have hpath : file.1 = SourceFile.pathIn w root path := (readableAt_eq_some_iff.mp hread).2
    rw [← hpath, Option.filter_some]

/-- In a directory that has been prepared, the restricted scanner finds the same tokens. -/
theorem map_tokensFound_restricted [Nesting.Room] (s : Scanner) (r : Repository) (hw : w.Grounded) :
    (s.restricted.resultIn r w (w.realPath directory)).map (·.tokensFound) =
      (s.unrestricted.resultIn r w (w.realPath directory)).map (·.tokensFound) := by
  rcases hdiscovered : outcome (s.unrestricted.discovery.discover w (w.realPath directory)) [] with
    ⟨e | paths, complaints⟩
  · have hall : s.restricted.discovery.unfiltered = s.unrestricted.discovery := rfl
    unfold resultIn
    rw [Discovery.outcome_discover_eq_filter, hall, hdiscovered]
    rfl
  · obtain ⟨files, -, hresult⟩ := exists_resultIn_eq (s := s.unrestricted) (r := r) hdiscovered
    obtain ⟨files', -, hresult'⟩ := exists_resultIn_eq (s := s.restricted) (r := r)
      (outcome_discover_restricted hw hdiscovered)
    have hsame := s.tokensIn_filter_searches (paths.filterMap (readableAt w (w.realPath directory)))
    rw [← filterMap_readableAt_filter] at hsame
    have hboth : s.restricted.tokensIn = s.tokensIn ∧ s.unrestricted.tokensIn = s.tokensIn :=
      ⟨rfl, rfl⟩
    rw [hresult, hresult', hboth.1, hboth.2, hsame]
    rcases s.tokensIn _ with e | found <;> rfl

/-- The extensions of the formats are a shortcut for a scan: it finds the same tokens, or ends with
the same cause, when it reads files with any extension. What is left out are exactly the discovered
files in which no format searches by their path below the root. -/
theorem tokensFound_scan_restricted [Nesting.Room] (s : Scanner) (r : Repository) (w : World)
    (hgrounded : ∀ directory w₁,
      outcome (Checkout.prepare s.copies r) w = (.ok directory, w₁) → w₁.Grounded) :
    (outcome (s.restricted.scan r) w).1.map (·.tokensFound) =
        (outcome (s.unrestricted.scan r) w).1.map (·.tokensFound) ∧
      ∀ directory w₁ paths complaints,
        outcome (Checkout.prepare s.copies r) w = (.ok directory, w₁) →
        outcome (s.unrestricted.discovery.discover w₁ (w₁.realPath directory)) [] =
          (.ok paths, complaints) →
        outcome (s.restricted.discovery.discover w₁ (w₁.realPath directory)) [] =
          (.ok (paths.filter fun p =>
            s.formats.any (·.appliesTo (SourceFile.pathIn w₁ (w₁.realPath directory) p))),
            complaints) := by
  constructor
  · rcases hprepared : outcome (Checkout.prepare s.copies r) w with ⟨e | directory, w₁⟩
    · rw [fst_outcome_scan_of_error (s := s.restricted) hprepared,
        fst_outcome_scan_of_error (s := s.unrestricted) hprepared]
    · rw [fst_outcome_scan (s := s.restricted) hprepared,
        fst_outcome_scan (s := s.unrestricted) hprepared]
      cases (outcome (Run.requirePath directory) w₁).1 with
      | error e => simp only [Except.bind, Except.map]
      | ok =>
        simp only [Except.bind]
        exact s.map_tokensFound_restricted r (hgrounded directory w₁ hprepared)
  · intro directory w₁ paths complaints hprepared hdiscovered
    exact outcome_discover_restricted (hgrounded directory w₁ hprepared) hdiscovered

/-- A repository with a stylesheet and a text that no general format searches, in which one token is
referenced. -/
def stylesheetAndNotes : FileTree :=
  ⟨[(["repo"], .directory),
    (["repo", "a.css"], .file (Text.Utf8.encode "a \x7b color: var(--a) var(--a) \x7d".toList)),
    (["repo", "notes.txt"], .file (Text.Utf8.encode "use var(--a)".toList))]⟩

attribute [local instance] Nesting.Room.ample

/-- The references in the stylesheet are found, and the text is left out or searched in vain. -/
theorem tokensFound_scan_restricted_notes :
    (World.ofFiles stylesheetAndNotes).Grounded ∧
      outcome ((general ["*"]).unrestricted.discovery.discover (World.ofFiles stylesheetAndNotes)
        "/repo") [] = (.ok ["/repo/a.css", "/repo/notes.txt"], []) ∧
      outcome ((general ["*"]).restricted.discovery.discover (World.ofFiles stylesheetAndNotes)
        "/repo") [] = (.ok ["/repo/a.css"], []) ∧
      ∃ tokens, tokens.map (·.totalCount) = [2] ∧
        (outcome ((general ["*"]).restricted.scan (Repository.ofDirectory "/repo" "repo"))
          (World.ofFiles stylesheetAndNotes)).1.map (·.tokensFound) = .ok tokens ∧
        (outcome ((general ["*"]).unrestricted.scan (Repository.ofDirectory "/repo" "repo"))
          (World.ofFiles stylesheetAndNotes)).1.map (·.tokensFound) = .ok tokens := by
  have hworld : (World.ofFiles stylesheetAndNotes).Grounded :=
    World.grounded_ofFiles ⟨by decide, by decide, by decide⟩
  have hprepared : outcome (Checkout.prepare (general ["*"]).copies
      (Repository.ofDirectory "/repo" "repo")) (World.ofFiles stylesheetAndNotes) =
        (.ok "/repo", World.ofFiles stylesheetAndNotes) := rfl
  have hall : outcome ((general ["*"]).unrestricted.discovery.discover
      (World.ofFiles stylesheetAndNotes) "/repo") [] =
        (.ok ["/repo/a.css", "/repo/notes.txt"], []) := by
    have hroot : Discovery.openRoot (World.ofFiles stylesheetAndNotes) "/repo" =
        .ok ("/repo", ["repo"]) := rfl
    have hways : (general ["*"]).unrestricted.discovery.includePatterns.mapM
        (Discovery.waysOfPattern stylesheetAndNotes "/repo" ["repo"]) =
          .ok [[["a.css"], ["notes.txt"]]] := rfl
    -- Sorting does not reduce; but the pattern already finds the paths in order.
    refine Discovery.outcome_discover_of_sorted hroot hways ?_ (by decide +kernel) (by decide)
    show ∀ way ∈ [["a.css"], ["notes.txt"]], _
    rw [List.forall_mem_cons, List.forall_mem_singleton]
    exact ⟨⟨true, rfl⟩, ⟨true, rfl⟩⟩
  have hleft : (["/repo/a.css", "/repo/notes.txt"].filter fun p =>
      (general ["*"]).formats.any (·.appliesTo (SourceFile.pathIn
        (World.ofFiles stylesheetAndNotes) "/repo" p))) = ["/repo/a.css"] := by
    decide +kernel
  have hcounts : ((outcome ((general ["*"]).restricted.scan (Repository.ofDirectory "/repo" "repo"))
      (World.ofFiles stylesheetAndNotes)).1.map (·.tokensFound)).toOption.map
        (·.map (·.totalCount)) = some [2] := by
    decide +kernel
  obtain ⟨tokens, htokens, hcount⟩ := Option.map_eq_some_iff.mp hcounts
  have hrestricted := eq_ok_of_toOption htokens
  obtain ⟨hsame, hdiscover⟩ := tokensFound_scan_restricted (general ["*"])
    (Repository.ofDirectory "/repo" "repo") (World.ofFiles stylesheetAndNotes)
    fun directory w₁ h => (eq_of_outcome hprepared h).2 ▸ hworld
  have hkept := hdiscover "/repo" _ _ _ hprepared hall
  rw [show (World.ofFiles stylesheetAndNotes).realPath "/repo" = "/repo" from rfl, hleft] at hkept
  exact ⟨hworld, hall, hkept, tokens, hcount, hrestricted, hsame ▸ hrestricted⟩

end Scanner

end DesignTokens
