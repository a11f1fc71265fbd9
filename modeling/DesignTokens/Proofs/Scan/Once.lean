import DesignTokens.Proofs.Pattern.Starts
import DesignTokens.Proofs.Scan.Account
import Mathlib.Data.List.Sigma

/-!
# Each place once

A discovered path is kept as its pattern spells it, with steps to the directory above; only what is
reported is its normal form. So a file that two patterns spell differently is read twice, and every
occurrence in it is counted twice at one place. Without steps above every file has one path, and
then no place is counted twice, if every match of a format takes some text.
-/

namespace DesignTokens

/-- Where an occurrence is: its file, line and column, and the format that finds it. -/
def Occurrence.place (o : Occurrence) : String × Nat × Nat × String :=
  (o.filePath, o.line, o.column, o.formatName)

namespace TokenFormat

variable {f : TokenFormat} {content path : String} {contextLength : Int}

/-- No two matches of a format in a line of a text start at one place. -/
def StartsApart (f : TokenFormat) (content : String) : Prop :=
  ∀ line ∈ Text.splitOn '\n' content.toList, ((f.pattern.findAll line).map (·.start)).Nodup

/-- Matches that take some text start at different places. -/
theorem startsApart_of_nullable (h : f.pattern.nullable = false) (content : String) :
    f.StartsApart content :=
  fun line _ => Pattern.nodup_start_findAll h line

/-- The places of the occurrences of a format, line by line. -/
theorem map_place_occurrences (f : TokenFormat) (content path : String) (contextLength : Int) :
    (f.occurrences content path contextLength).map Occurrence.place =
      (Text.splitOn '\n' content.toList).zipIdx.flatMap fun l =>
        (f.pattern.findAll l.1).map fun m => (path, l.2 + 1, m.start + 1, f.name) := by
  unfold occurrences matchesIn matchesInLine
  simp only [List.map_flatMap, List.map_map]
  rfl

/-- A format finds nothing twice at one place exactly when its matches start apart. -/
theorem nodup_place_occurrences_iff :
    ((f.occurrences content path contextLength).map Occurrence.place).Nodup ↔
      f.StartsApart content := by
  have hlines := List.nodup_zipIdx_map_snd (Text.splitOn '\n' content.toList)
  rw [map_place_occurrences, nodup_flatMap_iff (List.Nodup.of_map _ hlines)]
  have hline : ∀ l : List Char × Nat,
      ((f.pattern.findAll l.1).map fun m => (path, l.2 + 1, m.start + 1, f.name)).Nodup ↔
        ((f.pattern.findAll l.1).map (·.start)).Nodup := by
    intro l
    have hplace : Function.Injective fun start : Nat => (path, l.2 + 1, start + 1, f.name) := by
      intro start start' heq
      simpa using heq
    have hstarts := List.nodup_map_iff hplace (l := (f.pattern.findAll l.1).map (·.start))
    rwa [List.map_map] at hstarts
  have hapart : ∀ l ∈ (Text.splitOn '\n' content.toList).zipIdx,
      ∀ l' ∈ (Text.splitOn '\n' content.toList).zipIdx, l ≠ l' →
        List.Disjoint
          ((f.pattern.findAll l.1).map fun m => (path, l.2 + 1, m.start + 1, f.name))
          ((f.pattern.findAll l'.1).map fun m => (path, l'.2 + 1, m.start + 1, f.name)) := by
    intro l hl l' hl' hne place hplace hplace'
    obtain ⟨m, -, rfl⟩ := List.mem_map.mp hplace
    obtain ⟨m', -, heq⟩ := List.mem_map.mp hplace'
    have hnumber : l'.2 = l.2 := by
      simp only [Prod.mk.injEq] at heq
      omega
    exact hne (List.inj_on_of_nodup_map hlines hl hl' hnumber.symm)
  simp only [hline]
  constructor
  · rintro ⟨hnodup, -⟩ line hmem
    obtain ⟨i, hi, rfl⟩ := List.mem_iff_getElem.mp hmem
    exact hnodup (_, i) (List.mem_zipIdx_iff_getElem?.mpr (by simp [hi]))
  · intro hnodup
    refine ⟨fun l hl => hnodup l.1 ?_, hapart⟩
    exact List.fst_mem_of_mem_zipIdx hl

end TokenFormat

namespace Scanner

variable {s : Scanner} {r : Repository} {w w' : World} {result : ScanResult}

/-- No two occurrences of a result are at one place. -/
def CountsOnce (result : ScanResult) : Prop :=
  ((result.tokensFound.flatMap (·.occurrences)).map Occurrence.place).Nodup

section File

variable {entry : String × String}

/-- An occurrence tells the path of the file that it is in. -/
theorem filePath_of_mem_occurrencesIn {files : List (String × String)} {o : Occurrence}
    (h : o ∈ s.occurrencesIn files) : ∃ file ∈ files, o.filePath = file.1 := by
  obtain ⟨file, hfile, ho⟩ := List.mem_flatMap.mp h
  obtain ⟨f, -, ho⟩ := List.mem_flatMap.mp ho
  exact ⟨file, hfile, (TokenFormat.of_mem_occurrences ho).1⟩

/-- In one file nothing is found twice at one place exactly when the matches of each format start
apart. -/
theorem nodup_place_occurrencesIn_iff (hnames : (s.formats.map (·.name)).Nodup) :
    ((s.occurrencesIn [entry]).map Occurrence.place).Nodup ↔
      ∀ f ∈ s.formats, f.appliesTo entry.1 = true → f.StartsApart entry.2 := by
  have hformats := (List.Nodup.of_map _ hnames).filter fun f => f.appliesTo entry.1
  have hflat : (s.occurrencesIn [entry]).map Occurrence.place =
      (s.formats.filter (·.appliesTo entry.1)).flatMap fun f =>
        (f.occurrences entry.2 entry.1 s.contextLength).map Occurrence.place := by
    unfold occurrencesIn
    rw [List.flatMap_singleton, List.map_flatMap]
  have hapart : ∀ f ∈ s.formats.filter (·.appliesTo entry.1),
      ∀ f' ∈ s.formats.filter (·.appliesTo entry.1), f ≠ f' →
        List.Disjoint ((f.occurrences entry.2 entry.1 s.contextLength).map Occurrence.place)
          ((f'.occurrences entry.2 entry.1 s.contextLength).map Occurrence.place) := by
    intro f hf f' hf' hne place hplace hplace'
    obtain ⟨o, ho, rfl⟩ := List.mem_map.mp hplace
    obtain ⟨o', ho', heq⟩ := List.mem_map.mp hplace'
    have hname : f'.name = f.name := by
      rw [← (TokenFormat.of_mem_occurrences ho).2, ← (TokenFormat.of_mem_occurrences ho').2]
      exact congrArg (·.2.2.2) heq
    exact hne (List.inj_on_of_nodup_map hnames (List.mem_filter.mp hf).1 (List.mem_filter.mp hf').1
      hname.symm)
  rw [hflat, nodup_flatMap_iff hformats, and_iff_left hapart]
  simp only [TokenFormat.nodup_place_occurrences_iff, List.mem_filter, and_imp]

end File

section Read

/-- The file at a path, by its path in the repository, with its text, if it can be read. -/
def readableAt (w : World) (root path : String) : Option (String × String) :=
  match SourceFile.read w root path with
  | .ok file => file.readable?
  | .error _ => none

/-- What the formats find in the file at a path. -/
def occurrencesAt (s : Scanner) (w : World) (root path : String) : List Occurrence :=
  s.occurrencesIn (readableAt w root path).toList

/-- The files that could be read are those at the paths. -/
theorem readable_of_mapM {root : String} {paths : List String} {files : List SourceFile}
    (h : paths.mapM (SourceFile.read w root) = .ok files) :
    readable files = paths.filterMap (readableAt w root) := by
  refine filterMap_eq_of_mapM h fun path file hread => ?_
  unfold readableAt
  rw [hread]

/-- The occurrences in the files that could be read, path by path. -/
theorem occurrencesIn_readable {root : String} {paths : List String} {files : List SourceFile}
    (h : paths.mapM (SourceFile.read w root) = .ok files) :
    s.occurrencesIn (readable files) = paths.flatMap (s.occurrencesAt w root) := by
  rw [readable_of_mapM h, List.filterMap_eq_flatMap_toList]
  unfold occurrencesIn
  rw [List.flatMap_assoc]
  rfl

/-- A file that can be read is reported by its path relative to the repository. -/
theorem readableAt_eq_some_iff {root path : String} {entry : String × String} :
    readableAt w root path = some entry ↔
      (w.textOf path).toOption = some entry.2 ∧
        entry.1 = PathText.relative (PathText.absolute w.workingDirectory path)
          (PathText.absolute w.workingDirectory root) := by
  obtain ⟨file, text⟩ := entry
  unfold readableAt SourceFile.read
  cases w.textOf path with
  | ok found => simp [SourceFile.readable?, Except.toOption, and_comm, @eq_comm _ file]
  | error e => cases e <;> simp [SourceFile.readable?, Except.toOption]

/-- The text of a file depends on where a path leads. -/
theorem toOption_textOf_congr {path other : String}
    (h : w.files.locate w.directory path = w.files.locate w.directory other) :
    (w.textOf path).toOption = (w.textOf other).toOption := by
  unfold World.textOf FileTree.read
  rw [h]
  cases w.files.locate w.directory other with
  | error fault => rfl
  | ok at_ =>
    simp only
    rcases w.files.node? at_ with _ | _ | content <;> rfl

/-- Paths that lead to one place, with one normal form, are of one file. -/
theorem readableAt_congr {root path other : String}
    (hplace : w.files.locate w.directory path = w.files.locate w.directory other)
    (hform :
      PathText.absolute w.workingDirectory path = PathText.absolute w.workingDirectory other) :
    readableAt w root path = readableAt w root other := by
  apply Option.ext
  intro entry
  rw [readableAt_eq_some_iff, readableAt_eq_some_iff, toOption_textOf_congr hplace, hform]

end Read

section Once

variable {directory : String} {w₁ : World} {paths complaints : List String}
  {files : List SourceFile}

/-- No file in which something is found is discovered by two paths. -/
def ReadsOnce (s : Scanner) (w : World) (root : String) (paths : List String) : Prop :=
  ∀ p ∈ paths, ∀ q ∈ paths, p ≠ q →
    w.files.locate w.directory p = w.files.locate w.directory q → s.occurrencesAt w root p = []

/-- In no file that can be read do two matches of one format start at one place. -/
def MatchesApart (s : Scanner) (w : World) (root : String) (paths : List String) : Prop :=
  ∀ p ∈ paths, ∀ entry, readableAt w root p = some entry →
    ∀ f ∈ s.formats, f.appliesTo entry.1 = true → f.StartsApart entry.2

/-- Matches are apart if no file has two occurrences at one place. -/
theorem matchesApart_iff (hnames : (s.formats.map (·.name)).Nodup) {root : String} :
    s.MatchesApart w root paths ↔
      ∀ p ∈ paths, ((s.occurrencesAt w root p).map Occurrence.place).Nodup := by
  refine forall₂_congr fun p _ => ?_
  unfold occurrencesAt
  cases readableAt w root p with
  | none => simp [occurrencesIn]
  | some entry =>
    rw [Option.toList_some, nodup_place_occurrencesIn_iff hnames]
    simp only [Option.some.injEq, forall_eq']

/-- A format whose matches all take some text matches once at each place. -/
theorem matchesApart_of_nullable (h : ∀ f ∈ s.formats, f.pattern.nullable = false) (root : String)
    (paths : List String) : s.MatchesApart w root paths :=
  fun _ _ entry _ f hf _ => TokenFormat.startsApart_of_nullable (h f hf) entry.2

variable [Nesting.Room]

namespace Stages

/-- The root of a scan is opened at a directory, and is the path of that directory. -/
theorem exists_openRoot (h : Stages s r w directory w₁ paths complaints files result)
    (hw : w₁.Grounded) :
    ∃ at_, Discovery.openRoot w₁ (w₁.realPath directory) = .ok (w₁.realPath directory, at_) ∧
      w₁.realPath directory = PathText.rooted at_ ∧ w₁.files.hasDirectory at_ = true :=
  Discovery.exists_openRoot_realPath hw h.discovered

/-- A path that is read leads to a file, and its normal form is the path of that file. -/
theorem exists_location (h : Stages s r w directory w₁ paths complaints files result)
    (hw : w₁.Grounded) {p : String} (hp : p ∈ paths) :
    ∃ location, w₁.files.locate w₁.directory p = .ok location ∧
      (∀ name ∈ location, PathText.IsProper name) ∧
      PathText.absolute w₁.workingDirectory p = PathText.rooted location := by
  obtain ⟨at_, hroot, hreal, hdirectory⟩ := h.exists_openRoot hw
  have hdiscovered := Discovery.discovered_of_outcome hw hroot h.discovered
  rw [hreal] at hdiscovered
  obtain ⟨location, hlocate, hfile, hform⟩ :=
    hdiscovered.exists_location hw.tree hdirectory hp w₁.directory w₁.workingDirectory
  exact ⟨location, hlocate, hw.tree.isProper_of_isSome (FileTree.isSome_of_hasFile hfile), hform⟩

/-- Two paths of one file have the same found in them. -/
theorem occurrencesAt_congr (h : Stages s r w directory w₁ paths complaints files result)
    (hw : w₁.Grounded) {p q : String} (hp : p ∈ paths) (hq : q ∈ paths)
    (hsame : w₁.files.locate w₁.directory p = w₁.files.locate w₁.directory q) (root : String) :
    s.occurrencesAt w₁ root p = s.occurrencesAt w₁ root q := by
  obtain ⟨location, hlocate, -, hform⟩ := h.exists_location hw hp
  obtain ⟨location', hlocate', -, hform'⟩ := h.exists_location hw hq
  obtain rfl := Except.ok.inj (hlocate.symm.trans (hsame.trans hlocate'))
  unfold occurrencesAt
  rw [readableAt_congr hsame (hform.trans hform'.symm)]

/-- What is found at two paths is reported for one file only if they are of one file. -/
theorem locate_eq_of_filePath_eq (h : Stages s r w directory w₁ paths complaints files result)
    (hw : w₁.Grounded) {p q : String} (hp : p ∈ paths) (hq : q ∈ paths) {o o' : Occurrence}
    (ho : o ∈ s.occurrencesAt w₁ (w₁.realPath directory) p)
    (ho' : o' ∈ s.occurrencesAt w₁ (w₁.realPath directory) q) (hsame : o.filePath = o'.filePath) :
    w₁.files.locate w₁.directory p = w₁.files.locate w₁.directory q := by
  obtain ⟨at_, -, hreal, hdirectory⟩ := h.exists_openRoot hw
  have hbase := hw.tree.isProper_of_isSome (FileTree.isSome_of_hasDirectory hdirectory)
  obtain ⟨location, hlocate, hnames, hform⟩ := h.exists_location hw hp
  obtain ⟨location', hlocate', hnames', hform'⟩ := h.exists_location hw hq
  obtain ⟨entry, hentry, hpath⟩ := filePath_of_mem_occurrencesIn ho
  obtain ⟨entry', hentry', hpath'⟩ := filePath_of_mem_occurrencesIn ho'
  have hreported := (readableAt_eq_some_iff.mp (Option.mem_toList.mp hentry)).2
  have hreported' := (readableAt_eq_some_iff.mp (Option.mem_toList.mp hentry')).2
  -- Both files are reported by paths relative to one directory, which tell locations apart.
  rw [hpath, hpath', hreported, hreported', hform, hform', hreal,
    PathText.absolute_rooted_of_isProper hbase] at hsame
  obtain rfl := PathText.relative_rooted_injective (fun name hname => (hbase name hname).1)
    hnames hnames' hsame
  exact hlocate.trans hlocate'.symm

/-- What is found at two paths is at different places, unless they are of one file in which
something is found. -/
theorem disjoint_iff (h : Stages s r w directory w₁ paths complaints files result)
    (hw : w₁.Grounded) {p q : String} (hp : p ∈ paths) (hq : q ∈ paths) :
    List.Disjoint ((s.occurrencesAt w₁ (w₁.realPath directory) p).map Occurrence.place)
        ((s.occurrencesAt w₁ (w₁.realPath directory) q).map Occurrence.place) ↔
      (w₁.files.locate w₁.directory p = w₁.files.locate w₁.directory q →
        s.occurrencesAt w₁ (w₁.realPath directory) p = []) := by
  constructor
  · intro hdisjoint hsame
    rw [← h.occurrencesAt_congr hw hp hq hsame] at hdisjoint
    apply List.eq_nil_iff_forall_not_mem.mpr
    intro o ho
    exact hdisjoint (List.mem_map_of_mem ho) (List.mem_map_of_mem ho)
  · intro hempty place hplace hplace'
    obtain ⟨o, ho, rfl⟩ := List.mem_map.mp hplace
    obtain ⟨o', ho', heq⟩ := List.mem_map.mp hplace'
    have hsame := h.locate_eq_of_filePath_eq hw hp hq ho ho' (congrArg (·.1) heq).symm
    rw [hempty hsame] at ho
    cases ho

/-- No place is counted twice exactly when no file is read twice and no format matches twice at one
place. -/
theorem countsOnce_iff (h : Stages s r w directory w₁ paths complaints files result)
    (hw : w₁.Grounded) (hnames : (s.formats.map (·.name)).Nodup) :
    CountsOnce result ↔ s.ReadsOnce w₁ (w₁.realPath directory) paths ∧
      s.MatchesApart w₁ (w₁.realPath directory) paths := by
  obtain ⟨us, hsums⟩ := exists_sums h.summed
  obtain ⟨at_, hroot, -, -⟩ := h.exists_openRoot hw
  have hpaths : paths.Nodup :=
    (Discovery.discovered_of_outcome hw hroot h.discovered).pairwise.imp String.ne_of_lt
  unfold CountsOnce ReadsOnce
  rw [(hsums.perm_occurrences.map _).nodup_iff, occurrencesIn_readable h.read, List.map_flatMap,
    nodup_flatMap_iff hpaths, matchesApart_iff hnames, and_comm]
  refine and_congr_left fun _ => ?_
  refine forall₂_congr fun p hp => forall₂_congr fun q hq => ?_
  exact imp_congr_right fun _ => h.disjoint_iff hw hp hq

/-- Without steps up no file is read twice. -/
theorem readsOnce (h : Stages s r w directory w₁ paths complaints files result) (hw : w₁.Grounded)
    (hstraight : s.discovery.IsStraight (w₁.realPath directory)) :
    s.ReadsOnce w₁ (w₁.realPath directory) paths := by
  obtain ⟨at_, hroot, hreal, hdirectory⟩ := h.exists_openRoot hw
  have hdiscovered := Discovery.discovered_of_outcome hw hroot h.discovered
  rw [hreal] at hdiscovered hstraight
  intro p hp q hq hne hsame
  obtain ⟨location, hlocate, -, -⟩ := h.exists_location hw hp
  have hfirst := hdiscovered.eq_rooted hw.tree hdirectory hstraight hp hlocate
  have hsecond := hdiscovered.eq_rooted hw.tree hdirectory hstraight hq (hsame.symm.trans hlocate)
  exact absurd (hfirst.trans hsecond.symm) hne

end Stages

/-- A scan counts no place twice exactly when it reads no file twice in which something is found,
and no format matches twice at one place of a line. It counts each place once if no include pattern
takes a step up and every match of a format takes some text. -/
theorem scan_countsOnce_iff (hnames : (s.formats.map (·.name)).Nodup)
    (hgrounded : ∀ directory w₁,
      outcome (Checkout.prepare s.copies r) w = (.ok directory, w₁) → w₁.Grounded)
    (h : outcome (s.scan r) w = (.ok result, w')) :
    ∃ directory w₁ paths complaints files,
      Stages s r w directory w₁ paths complaints files result ∧
        (CountsOnce result ↔ s.ReadsOnce w₁ (w₁.realPath directory) paths ∧
          s.MatchesApart w₁ (w₁.realPath directory) paths) ∧
        (s.discovery.IsStraight (w₁.realPath directory) →
          (∀ f ∈ s.formats, f.pattern.nullable = false) → CountsOnce result) := by
  obtain ⟨directory, w₁, paths, complaints, files, hstages⟩ := exists_stages h
  have hw := hgrounded directory w₁ hstages.prepared
  have hiff := hstages.countsOnce_iff hw hnames
  refine ⟨directory, w₁, paths, complaints, files, hstages, hiff, fun hstraight htakes => ?_⟩
  exact hiff.mpr ⟨hstages.readsOnce hw hstraight, matchesApart_of_nullable htakes _ _⟩

end Once

/-- The tree with one stylesheet is well-formed. -/
theorem wellFormed_oneStylesheet : oneStylesheet.WellFormed := ⟨by decide, by decide, by decide⟩

attribute [local instance] Nesting.Room.ample

/-- The directory with one stylesheet is prepared. -/
theorem prepare_oneStylesheet :
    outcome (Checkout.prepare .null (Repository.ofDirectory "/repo" "repo"))
      (World.ofFiles oneStylesheet) = (.ok "/repo", World.ofFiles oneStylesheet) := rfl

/-- A scan with patterns that overlap. -/
def overlapping : Scanner := general ["*.css", "./**/*.css"]

/-- None of its patterns takes a step up. -/
theorem isStraight_overlapping (root : String) : overlapping.discovery.IsStraight root := by
  refine Discovery.isStraight_ofPatterns ?_ root
  rw [List.forall_mem_cons, List.forall_mem_singleton]
  exact ⟨⟨"*.css", by decide⟩, ⟨"./**/*.css", by decide⟩⟩

/-- The patterns reach the stylesheet twice, and its two references are counted once each. -/
theorem scan_countsOnce_overlapping :
    (overlapping.formats.map (·.name)).Nodup ∧ (World.ofFiles oneStylesheet).Grounded ∧
      ∃ result w', outcome (overlapping.scan (Repository.ofDirectory "/repo" "repo"))
        (World.ofFiles oneStylesheet) = (.ok result, w') ∧ result.totalUsage = 2 ∧
          CountsOnce result := by
  have hnames : (overlapping.formats.map (·.name)).Nodup := by decide
  have hworld := World.grounded_ofFiles wellFormed_oneStylesheet
  have htotal : (outcome (overlapping.scan (Repository.ofDirectory "/repo" "repo"))
      (World.ofFiles oneStylesheet)).1.toOption.map (·.totalUsage) = some 2 := by
    decide +kernel
  obtain ⟨result, hresult, htwo⟩ := Option.map_eq_some_iff.mp htotal
  obtain ⟨w', houtcome⟩ := exists_outcome_of_toOption hresult
  have hgrounded : ∀ directory w₁, outcome (Checkout.prepare overlapping.copies
      (Repository.ofDirectory "/repo" "repo")) (World.ofFiles oneStylesheet) = (.ok directory, w₁) →
        w₁.Grounded := by
    intro directory w₁ h
    obtain ⟨-, rfl⟩ := eq_of_outcome prepare_oneStylesheet h
    exact hworld
  obtain ⟨directory, w₁, paths, complaints, files, -, -, honce⟩ :=
    scan_countsOnce_iff hnames hgrounded houtcome
  have htakes : ∀ f ∈ overlapping.formats, f.pattern.nullable = false :=
    TokenFormat.nullable_presets ("default", TokenFormat.general)
      (List.mem_cons_of_mem _ (List.mem_singleton_self _))
  exact ⟨hnames, hworld, result, w', houtcome, htwo, honce (isStraight_overlapping _) htakes⟩

/-- A repository with one stylesheet in a directory, in which one token is referenced once. -/
def nestedStylesheet : FileTree :=
  ⟨[(["repo"], .directory), (["repo", "src"], .directory),
    (["repo", "src", "a.css"], .file (Text.Utf8.encode "p\x7bcolor:var(--x)\x7d".toList))]⟩

/-- The tree with a stylesheet below is well-formed. -/
theorem wellFormed_nestedStylesheet : nestedStylesheet.WellFormed :=
  ⟨by decide, by decide, by decide⟩

/-- A scan with two spellings of one directory. -/
def spelledTwice : Scanner := general ["src/../src/*.css", "src/*.css"]

/-- Discovery finds the stylesheet by both of its paths. -/
theorem discover_spelledTwice :
    outcome (spelledTwice.discovery.discover (World.ofFiles nestedStylesheet) "/repo") [] =
      (.ok ["/repo/src/../src/a.css", "/repo/src/a.css"], []) := by
  have hroot : Discovery.openRoot (World.ofFiles nestedStylesheet) "/repo" =
      .ok ("/repo", ["repo"]) := rfl
  have hways : spelledTwice.discovery.includePatterns.mapM
      (Discovery.waysOfPattern nestedStylesheet "/repo" ["repo"]) =
        .ok [[["src", "..", "src", "a.css"]], [["src", "a.css"]]] := rfl
  -- Sorting does not reduce; but the patterns already find the paths in order.
  refine Discovery.outcome_discover_of_sorted hroot hways ?_ (by decide +kernel) (by decide)
  show ∀ way ∈ [["src", "..", "src", "a.css"], ["src", "a.css"]], _
  rw [List.forall_mem_cons, List.forall_mem_singleton]
  exact ⟨⟨true, rfl⟩, ⟨true, rfl⟩⟩

/-- The stylesheet as it is read. -/
def readStylesheet : SourceFile := ⟨"src/a.css", .ok "p\x7bcolor:var(--x)\x7d"⟩

/-- By both paths the same text is read. -/
theorem read_nestedStylesheet :
    ["/repo/src/../src/a.css", "/repo/src/a.css"].mapM
        (SourceFile.read (World.ofFiles nestedStylesheet) "/repo") =
      .ok [readStylesheet, readStylesheet] := by
  have hread : ∀ path ∈ ["/repo/src/../src/a.css", "/repo/src/a.css"],
      SourceFile.read (World.ofFiles nestedStylesheet) "/repo" path = .ok readStylesheet := by
    have hfacts : ∀ path ∈ ["/repo/src/../src/a.css", "/repo/src/a.css"],
        ((World.ofFiles nestedStylesheet).textOf path).toOption = some "p\x7bcolor:var(--x)\x7d" ∧
          PathText.relative (PathText.absolute "/" path) (PathText.absolute "/" "/repo") =
            "src/a.css" := by
      decide +kernel
    intro path hpath
    obtain ⟨htext, hplace⟩ := hfacts path hpath
    have hworking : (World.ofFiles nestedStylesheet).workingDirectory = "/" := rfl
    unfold SourceFile.read readStylesheet
    simp only [eq_ok_of_toOption htext, hworking, hplace]
  rw [List.forall_mem_cons, List.forall_mem_singleton] at hread
  exact mapM_eq_ok_iff.mpr (.cons hread.1 (.cons hread.2 .nil))

/-- The stylesheet is read at both of its paths, and its one reference is counted twice. -/
theorem not_countsOnce_spelledTwice :
    (spelledTwice.formats.map (·.name)).Nodup ∧ (World.ofFiles nestedStylesheet).Grounded ∧
      ∃ result w', outcome (spelledTwice.scan (Repository.ofDirectory "/repo" "repo"))
        (World.ofFiles nestedStylesheet) = (.ok result, w') ∧ ¬ CountsOnce result := by
  refine ⟨by decide, World.grounded_ofFiles wellFormed_nestedStylesheet, ?_⟩
  have hplaces : (spelledTwice.resultOf (Repository.ofDirectory "/repo" "repo")
      (World.ofFiles nestedStylesheet) [] [readStylesheet, readStylesheet]).toOption.map
        (fun result => (result.tokensFound.flatMap (·.occurrences)).map Occurrence.place) =
      some [("src/a.css", 1, 9, "css-variables"), ("src/a.css", 1, 9, "css-variables")] := by
    decide +kernel
  obtain ⟨result, hresult, htwice⟩ := Option.map_eq_some_iff.mp hplaces
  have hstages : Stages spelledTwice (Repository.ofDirectory "/repo" "repo")
      (World.ofFiles nestedStylesheet) "/repo" (World.ofFiles nestedStylesheet)
      ["/repo/src/../src/a.css", "/repo/src/a.css"] [] [readStylesheet, readStylesheet] result := by
    constructor
    case prepared => rfl
    case discovered => exact discover_spelledTwice
    case read => exact read_nestedStylesheet
    case summed => exact eq_ok_of_toOption hresult
  obtain ⟨w', houtcome⟩ := hstages.exists_outcome rfl
  refine ⟨result, w', houtcome, ?_⟩
  unfold CountsOnce
  rw [htwice]
  decide

end Scanner

end DesignTokens
