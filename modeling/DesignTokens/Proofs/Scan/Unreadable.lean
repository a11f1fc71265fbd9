import DesignTokens.Proofs.Files.ThinnedSearch
import DesignTokens.Proofs.Scan.Answer
import DesignTokens.Proofs.Token.Tiers

/-!
# Files that cannot be read

A discovered file that is not a well encoded text is a complaint, and nothing else of the result
depends on it: the scan finds what it finds when the file is taken out of the tree. Both scans are
compared with one of a tree in which the files are as they were. That the paths are the same but for
what is taken out is a fact about searches, where complaints about patterns are the same; that the
rest of the result is the same is a fact about the list of the files that could be read.
-/

namespace DesignTokens

open FileTree

/-- What a result says of the files that could be read. -/
structure Findings where
  tokensFound : List Usage
  totalUsage : Int
  coverage : Int
  patterns : List UiPattern
  scannedFiles : Int
  uniqueTokens : Int
  mostUsedToken : String
  tokensByTier : Tally

/-- The part of a result that is about the files that could be read. -/
def ScanResult.findings (result : ScanResult) : Findings where
  tokensFound := result.tokensFound
  totalUsage := result.totalUsage
  coverage := result.coverage
  patterns := result.patterns
  scannedFiles := result.summary.scannedFiles
  uniqueTokens := result.summary.uniqueTokens
  mostUsedToken := result.summary.mostUsedToken
  tokensByTier := result.summary.tokensByTier

namespace World

variable {w w' : World} {path : String} {location : Location} {content : List UInt8}

/-- A path that leads to one file in two worlds has one text. -/
theorem textOf_congr (hlocate : w.files.locate w.directory path = .ok location)
    (hnode : w.files.node? location = some (.file content))
    (hlocate' : w'.files.locate w'.directory path = .ok location)
    (hnode' : w'.files.node? location = some (.file content)) :
    w.textOf path = w'.textOf path := by
  unfold textOf FileTree.read
  rw [hlocate, hlocate']
  dsimp only
  rw [hnode, hnode']

/-- A file that is not well encoded has no text. -/
theorem textOf_eq_error {fault : Text.Utf8.Fault}
    (hlocate : w.files.locate w.directory path = .ok location)
    (hnode : w.files.node? location = some (.file content))
    (hfault : Text.Utf8.decode content = .error fault) :
    w.textOf path = .error (.notUtf8 fault) := by
  unfold textOf FileTree.read
  rw [hlocate]
  dsimp only
  rw [hnode]
  dsimp only
  rw [hfault]

end World

namespace Scanner

variable {s : Scanner} {r : Repository} {w w₁ u u₁ v v₁ left : World} {directory root : String}
  {result : ScanResult} {paths complaints : List String} {files : List SourceFile}
  {bytes : String → Option (List UInt8)} {at_ : Location}

section Readable

/-- A file whose text cannot be read is not readable. -/
theorem readableAt_eq_none {e : Failure} {path : String} (h : w.textOf path = .error e) :
    readableAt w root path = none := by
  cases hread : readableAt w root path with
  | none => rfl
  | some file =>
    have htext := (readableAt_eq_some_iff.mp hread).1
    rw [h] at htext
    cases htext

/-- Whether a file is readable depends on its text. -/
theorem readableAt_eq_of_textOf {path : String} (htext : u.textOf path = w.textOf path)
    (hplace : u.workingDirectory = w.workingDirectory) :
    readableAt u root path = readableAt w root path := by
  apply Option.ext
  intro file
  rw [readableAt_eq_some_iff, readableAt_eq_some_iff, htext, hplace]

/-- Whether the file at a path cannot be read. -/
def isUnreadable (w : World) (path : String) : Bool := (complaintAt w path).isSome

/-- There is a complaint about each file that cannot be read. -/
theorem length_complaintAt (w : World) (paths : List String) :
    (paths.filterMap (complaintAt w)).length = (paths.filter (isUnreadable w)).length := by
  rw [List.length_filterMap_eq_countP, List.countP_eq_length_filter]
  rfl

/-- If the tokens in files can be counted, so can those in some of the files. -/
theorem exists_tokensIn_of_subset {some_ all : List (String × String)} {found : List Usage × Tally}
    (hrules : ∀ rule ∈ s.categorizer.rules, ∀ token path,
      (rule.classify token path).tier.isKey = true)
    (hsub : some_ ⊆ all) (h : s.tokensIn all = .ok found) :
    ∃ found', s.tokensIn some_ = .ok found' := by
  obtain ⟨us, husages, h⟩ := bind_eq_ok_iff.mp h
  obtain ⟨tiers, htiers, -⟩ := bind_eq_ok_iff.mp h
  obtain ⟨answers, hanswers, hflat⟩ := bind_eq_ok_iff.mp husages
  obtain rfl := Except.ok.inj hflat
  obtain ⟨answers', hanswers'⟩ := exists_mapM_eq_ok fun file (hfile : file ∈ some_) =>
    (exists_ok_of_mapM hanswers (hsub hfile)).imp fun _ h => h.2
  have hfound : ∀ u ∈ answers.flatten, u.IsFound s.categorizer := by
    intro u hu
    obtain ⟨us, hus, hu⟩ := List.mem_flatten.mp hu
    obtain ⟨file, -, hfile⟩ := (mem_iff_of_mapM hanswers).mp hus
    exact ⟨_, _, _, _, us, hfile, hu⟩
  have hfewer : answers'.flatten ⊆ answers.flatten := by
    intro u hu
    obtain ⟨us, hus, hu⟩ := List.mem_flatten.mp hu
    obtain ⟨file, hfile, hanswer⟩ := (mem_iff_of_mapM hanswers').mp hus
    exact List.mem_flatten.mpr ⟨us, (mem_iff_of_mapM hanswers).mpr ⟨file, hsub hfile, hanswer⟩, hu⟩
  obtain ⟨tiers', htiers'⟩ := Usage.exists_tierTotals_of_subset hrules hfound hfewer htiers
  refine ⟨(Usage.aggregate answers'.flatten, tiers'), ?_⟩
  have husages' : s.usagesIn some_ = .ok answers'.flatten :=
    bind_eq_ok_iff.mpr ⟨answers', hanswers', rfl⟩
  exact bind_eq_ok_iff.mpr ⟨_, husages', bind_eq_ok_iff.mpr ⟨tiers', htiers', rfl⟩⟩

end Readable

section Spoiled

/-- Bytes for some of the discovered files, none of them a well encoded text. -/
structure Spoils (paths : List String) (bytes : String → Option (List UInt8)) : Prop where
  discovered : ∀ p b, bytes p = some b → p ∈ paths
  undecodable : ∀ p b, bytes p = some b → ∃ fault, Text.Utf8.decode b = .error fault

/-- The tree in which the files at some paths are overwritten. -/
def spoiled (t : FileTree) (bytes : String → Option (List UInt8)) : FileTree :=
  t.overwritten fun l => bytes (PathText.rooted l)

/-- The tree without the files at these paths. -/
def cleared (t : FileTree) (bytes : String → Option (List UInt8)) : FileTree :=
  t.without fun l => (bytes (PathText.rooted l)).isSome

/-- The files that could be read and are not spoiled, by their paths in the repository, with their
texts. -/
def unspoiled (w : World) (root : String) (paths : List String)
    (bytes : String → Option (List UInt8)) : List (String × String) :=
  (paths.filter fun p => !(bytes p).isSome).filterMap (readableAt w root)

/-- A world in which a directory is prepared with a tree, and the world that is left then. -/
structure Prepares [Nesting.Room] (s : Scanner) (r : Repository)
    (directory workingDirectory : String)
    (t : FileTree) (u u₁ : World) : Prop where
  prepared : outcome (Checkout.prepare s.copies r) u = (.ok directory, u₁)
  workingDirectory_eq : u₁.workingDirectory = workingDirectory
  files_eq : u₁.files = t

/-- Preparing a repository leaves the real paths as they are. -/
theorem Prepares.realPath_eq [Nesting.Room] {t : FileTree}
    (h : Prepares s r directory w.workingDirectory t u u₁) (path : String) :
    u₁.realPath path = w.realPath path := by
  unfold World.realPath
  rw [h.workingDirectory_eq]

/-- A directory of this machine is prepared with fewer files too. -/
theorem prepares_of_local [Nesting.Room] {location : String}
    (hplace : r.place = .ok (location, true))
    {t : FileTree} {left : Location → Bool} (hw : w.files.WellFormed)
    (hthins : Thins left w.files t)
    (hprepared : outcome (Checkout.prepare s.copies r) w = (.ok directory, w₁)) :
    Prepares s r directory w₁.workingDirectory t { w with files := t } { w₁ with files := t } := by
  rw [Checkout.outcome_prepare_local hplace] at hprepared
  split at hprepared
  next hdirectory =>
    obtain ⟨hpath, rfl⟩ := Prod.mk.inj hprepared
    obtain rfl := Except.ok.inj hpath
    refine ⟨?_, rfl, rfl⟩
    have hdirectory' := hthins.isDirectory hw hdirectory
    rw [Checkout.outcome_prepare_local hplace]
    refine (if_pos hdirectory').trans (Prod.ext rfl ?_)
    unfold World.said
    split <;> rfl
  next => cases hprepared

/-- What is known of the paths that are discovered below a directory without steps up. -/
structure Surveys [Nesting.Room] (d : Discovery) (w : World) (at_ : Location)
    (paths complaints : List String) :
    Prop where
  grounded : w.Grounded
  isDirectory : w.files.hasDirectory at_ = true
  straight : d.IsStraight (PathText.rooted at_)
  discovered : Discovery.Discovered d w.files (PathText.rooted at_) at_ paths complaints

namespace Surveys

variable {d : Discovery} {p : String}

/-- A discovered path is that of a file. -/
theorem exists_file [Nesting.Room] (h : Surveys d w at_ paths complaints) (hp : p ∈ paths) :
    ∃ location content, p = PathText.rooted location ∧
      w.files.locate w.directory p = .ok location ∧
        w.files.node? location = some (.file content) := by
  obtain ⟨location, hlocate, hfile, -⟩ := h.discovered.exists_location h.grounded.tree
    h.isDirectory hp w.directory w.workingDirectory
  obtain ⟨content, hnode⟩ := hasFile_iff.mp hfile
  have hpath :=
    h.discovered.eq_rooted h.grounded.tree h.isDirectory h.straight hp hlocate
  exact ⟨location, content, hpath, hlocate, hnode⟩

/-- No directory is among the files that are spoiled. -/
theorem bytes_eq_none [Nesting.Room] (h : Surveys d w at_ paths complaints)
    (hbytes : Spoils paths bytes)
    {l : Location} (hl : w.files.hasDirectory l = true) : bytes (PathText.rooted l) = none := by
  by_contra hne
  obtain ⟨b, hb⟩ := Option.ne_none_iff_exists'.mp hne
  obtain ⟨location, content, hpath, -, hnode⟩ := h.exists_file (hbytes.discovered _ b hb)
  have hfile : w.files.hasFile location = true := hasFile_iff.mpr ⟨content, hnode⟩
  have hnames := h.grounded.tree.isProper_of_isSome (isSome_of_hasDirectory hl)
  have hnames' := h.grounded.tree.isProper_of_isSome (isSome_of_hasFile hfile)
  obtain rfl := PathText.rooted_injective (fun s hs => (hnames s hs).1)
    (fun s hs => (hnames' s hs).1) hpath
  rw [hasDirectory_eq_false_of_hasFile hfile] at hl
  cases hl

/-- Spoiled files are all discovered again. -/
theorem leavesOut_spoiled [Nesting.Room] (h : Surveys d w at_ paths complaints)
    (hbytes : Spoils paths bytes) :
    Discovery.LeavesOut (fun _ => true) d w.files (spoiled w.files bytes) at_ where
  thins := thins_overwritten h.grounded.tree fun _ hl => h.bytes_eq_none hbytes hl
  straight := h.straight
  seen := nofun

/-- Without these files the others are discovered again. -/
theorem leavesOut_cleared [Nesting.Room] (h : Surveys d w at_ paths complaints)
    (hbytes : Spoils paths bytes) :
    Discovery.LeavesOut (fun p => !(bytes p).isSome) d w.files (cleared w.files bytes) at_ where
  thins := thins_without h.grounded.tree fun _ hl => by rw [h.bytes_eq_none hbytes hl]; rfl
  straight := h.straight
  seen := by
    intro p hp
    rw [Bool.not_eq_false', Option.isSome_iff_exists] at hp
    obtain ⟨b, hb⟩ := hp
    obtain ⟨way, location, hreaches, -, hpath⟩ :=
      (h.discovered.mem_iff p).mp (hbytes.discovered p b hb)
    exact ⟨way, location, hreaches, hpath⟩

/-- In a tree with fewer files, a path of what is left leads where it led. -/
theorem locate_eq [Nesting.Room] (h : Surveys d w at_ paths complaints) {left : Location → Bool}
    (hthins : Thins left w.files u.files) {location : Location} {content : List UInt8}
    (hpath : p = PathText.rooted location)
    (hlocate : w.files.locate w.directory p = .ok location)
    (hnode : w.files.node? location = some (.file content)) (hleft : left location = true) :
    u.files.locate u.directory p = .ok location := by
  subst hpath
  have hthere : (w.files.node? location).isSome = true := by
    rw [hnode]
    rfl
  exact hthins.locate_rooted h.grounded.tree hthere hleft hlocate u.directory

/-- What is read at a discovered path when files are spoiled: a file that is spoiled cannot be
decoded, and any other one has the text that it had. -/
theorem textOf_spoiled [Nesting.Room] (h : Surveys d w at_ paths complaints)
    (hbytes : Spoils paths bytes)
    (hfiles : u.files = spoiled w.files bytes) (hp : p ∈ paths) :
    (bytes p = none → u.textOf p = w.textOf p) ∧
      ∀ b, bytes p = some b → ∃ fault, u.textOf p = .error (.notUtf8 fault) := by
  obtain ⟨location, content, hpath, hlocate, hnode⟩ := h.exists_file hp
  have hthins := (h.leavesOut_spoiled hbytes).thins
  rw [← hfiles] at hthins
  have hlocate' := h.locate_eq (u := u) hthins hpath hlocate hnode rfl
  have hroot := h.bytes_eq_none hbytes w.files.hasDirectory_root
  have hnode' : u.files.node? location = some (((bytes p).map Node.file).getD (.file content)) := by
    rw [hfiles, spoiled, node?_overwritten w.files hroot, hnode, hpath]
    rfl
  constructor
  · intro hnone
    rw [hnone] at hnode'
    exact World.textOf_congr hlocate' hnode' hlocate hnode
  · intro b hb
    obtain ⟨fault, hfault⟩ := hbytes.undecodable p b hb
    rw [hb] at hnode'
    exact ⟨fault, World.textOf_eq_error hlocate' hnode' hfault⟩

/-- Without these files the others have the texts that they had. -/
theorem textOf_cleared [Nesting.Room] (h : Surveys d w at_ paths complaints)
    (hbytes : Spoils paths bytes)
    (hfiles : v.files = cleared w.files bytes) (hp : p ∈ paths) (hnone : bytes p = none) :
    v.textOf p = w.textOf p := by
  obtain ⟨location, content, hpath, hlocate, hnode⟩ := h.exists_file hp
  have hthins := (h.leavesOut_cleared hbytes).thins
  rw [← hfiles] at hthins
  have hleft : (!(bytes (PathText.rooted location)).isSome) = true := by
    rw [← hpath, hnone]
    rfl
  have hlocate' := h.locate_eq (u := v) hthins hpath hlocate hnode hleft
  have hroot : (bytes (PathText.rooted [])).isSome = false := by
    rw [h.bytes_eq_none hbytes w.files.hasDirectory_root]
    rfl
  have hnode' : v.files.node? location = some (.file content) := by
    rw [hfiles, cleared, node?_without w.files hroot, ← hpath, hnone, hnode]
    rfl
  exact World.textOf_congr hlocate' hnode' hlocate hnode

section Read

variable [Nesting.Room] (h : Surveys d w at_ paths complaints) (hbytes : Spoils paths bytes)
include h hbytes

/-- A spoiled file is none of those that can be read, and the others are read as before. -/
theorem readable_spoiled (hfiles : u.files = spoiled w.files bytes)
    (hplace : u.workingDirectory = w.workingDirectory) (root : String) :
    paths.filterMap (readableAt u root) = unspoiled w root paths bytes := by
  unfold unspoiled
  rw [List.filterMap_filter]
  refine List.filterMap_congr fun p hp => ?_
  obtain ⟨hkept, hlost⟩ := h.textOf_spoiled hbytes hfiles hp
  cases hp : bytes p with
  | none => exact readableAt_eq_of_textOf (hkept hp) hplace
  | some b =>
    obtain ⟨fault, hfault⟩ := hlost b hp
    exact readableAt_eq_none hfault

/-- The files that are left when spoiled ones are taken out are read as before. -/
theorem readable_cleared (hfiles : v.files = cleared w.files bytes)
    (hplace : v.workingDirectory = w.workingDirectory) (root : String) :
    (paths.filter fun p => !(bytes p).isSome).filterMap (readableAt v root) =
      unspoiled w root paths bytes := by
  refine List.filterMap_congr fun p hp => ?_
  obtain ⟨hp, hkept⟩ := List.mem_filter.mp hp
  have hnone : bytes p = none := by simpa using hkept
  exact readableAt_eq_of_textOf (h.textOf_cleared hbytes hfiles hp hnone) hplace

/-- The files that cannot be read are those that could not be read and the spoiled ones. -/
theorem isUnreadable_spoiled (hfiles : u.files = spoiled w.files bytes) (hp : p ∈ paths) :
    isUnreadable u p = (isUnreadable w p || (bytes p).isSome) := by
  obtain ⟨hkept, hlost⟩ := h.textOf_spoiled hbytes hfiles hp
  unfold isUnreadable complaintAt
  cases hp : bytes p with
  | none =>
    rw [hkept hp, Option.isSome_none, Bool.or_false]
  | some b =>
    obtain ⟨fault, hfault⟩ := hlost b hp
    rw [hfault]
    exact (Bool.or_true _).symm

end Read

end Surveys

end Spoiled

section Account

/-- How a result accounts for what is discovered: first the complaints about patterns, then one
about each file that cannot be read, in the order of the paths; and how many files are not scanned
is the number of those that cannot be read. -/
structure AccountsFor (w : World) (paths complaints : List String) (result : ScanResult) :
    Prop where
  errors : result.errors = complaints ++ paths.filterMap (complaintAt w)
  total : result.summary.totalFiles = paths.length
  missed : result.summary.totalFiles - result.summary.scannedFiles =
    (paths.filter (isUnreadable w)).length

/-- The result of a scan accounts for the files that were found. -/
theorem accountsFor_report {found : List Usage × Tally}
    (hread : paths.mapM (SourceFile.read w root) = .ok files) :
    AccountsFor w paths complaints (s.report r w complaints files found) := by
  have hcomplaints := complaints_of_mapM hread
  have htotal : (s.report r w complaints files found).summary.totalFiles = paths.length :=
    congrArg Nat.cast (mapM_eq_ok_iff.mp hread).length_eq.symm
  constructor
  case errors => exact congrArg (complaints ++ ·) hcomplaints
  case total => exact htotal
  case missed =>
    have hsplit := length_readable files
    rw [hcomplaints, length_complaintAt] at hsplit
    show (files.length : Int) - (readable files).length = _
    omega

/-- Reports of the same readable files have the same findings. -/
theorem findings_report {complaints' : List String} {files' : List SourceFile}
    (hreadable : readable files = readable files') (found : List Usage × Tally) :
    (s.report r u complaints files found).findings =
      (s.report r v complaints' files' found).findings := by
  unfold report ScanResult.findings
  rw [hreadable]

/-- What a scan answers where files are discovered: a report of them. -/
theorem exists_fst_outcome_scan_eq [Nesting.Room] (hpossible : PathText.IsPossible directory)
    (hprepared : outcome (Checkout.prepare s.copies r) u = (.ok directory, u₁))
    (hdiscovered :
      outcome (s.discovery.discover u₁ (u₁.realPath directory)) [] = (.ok paths, complaints)) :
    ∃ files, paths.mapM (SourceFile.read u₁ (u₁.realPath directory)) = .ok files ∧
      (outcome (s.scan r) u).1 = (s.tokensIn (readable files)).map
        (s.report r u₁ complaints files) := by
  obtain ⟨files, hread, hresult⟩ := exists_resultIn_eq (s := s) (r := r) hdiscovered
  refine ⟨files, hread, ?_⟩
  rw [fst_outcome_scan_of_isPossible hprepared hpossible, hresult, readable_of_mapM hread]

namespace Stages

/-- The tokens in the files that could be read, which the result reports. -/
theorem exists_report [Nesting.Room] (h : Stages s r w directory w₁ paths complaints files result) :
    ∃ found, s.tokensIn (readable files) = .ok found ∧
      s.report r w₁ complaints files found = result := by
  have hsummed := h.summed
  rw [resultOf_eq_map] at hsummed
  exact map_eq_ok_iff.mp hsummed

/-- The result at the end of the stages accounts for the files that were found. -/
theorem accountsFor [Nesting.Room] (h : Stages s r w directory w₁ paths complaints files result) :
    AccountsFor w₁ paths complaints result := by
  obtain ⟨found, -, rfl⟩ := h.exists_report
  exact accountsFor_report h.read

/-- What has been discovered can be compared with what is discovered in other trees, if no include
pattern takes a step up. -/
theorem exists_surveys [Nesting.Room] (h : Stages s r w directory w₁ paths complaints files result)
    (hw : w₁.Grounded) (hstraight : s.discovery.IsStraight (w₁.realPath directory)) :
    ∃ at_, w₁.realPath directory = PathText.rooted at_ ∧
      Discovery.openRoot w₁ (w₁.realPath directory) = .ok (w₁.realPath directory, at_) ∧
        Surveys s.discovery w₁ at_ paths complaints := by
  obtain ⟨at_, hopen, hreal, hdirectory⟩ := h.exists_openRoot hw
  have hdiscovered := Discovery.discovered_of_outcome hw hopen h.discovered
  rw [hreal] at hdiscovered hstraight
  exact ⟨at_, hreal, hopen, hw, hdirectory, hstraight, hdiscovered⟩

section Trees

variable [Nesting.Room] (h : Stages s r w directory w₁ paths complaints files result)
  (hw : w₁.Grounded)
  (hpossible : PathText.IsPossible directory)
  (hstraight : s.discovery.IsStraight (w₁.realPath directory)) (hbytes : Spoils paths bytes)
include h hw hpossible hstraight hbytes

/-- With spoiled files all files are discovered again, and the scan reports what is in the
others. -/
theorem exists_scan_spoiled
    (hu : Prepares s r directory w₁.workingDirectory (spoiled w₁.files bytes) u u₁) :
    ∃ files', paths.mapM (SourceFile.read u₁ (u₁.realPath directory)) = .ok files' ∧
      readable files' = unspoiled w₁ (w₁.realPath directory) paths bytes ∧
        (outcome (s.scan r) u).1 =
          (s.tokensIn (unspoiled w₁ (w₁.realPath directory) paths bytes)).map
            (s.report r u₁ complaints files') := by
  obtain ⟨at_, hreal, hopen, hsurveys⟩ := h.exists_surveys hw hstraight
  have hleaves := hsurveys.leavesOut_spoiled hbytes
  rw [← hu.files_eq] at hleaves
  have hdiscovered :=
    hleaves.outcome_discover hw hu.workingDirectory_eq hreal hopen h.discovered
  rw [← hu.realPath_eq, List.filter_eq_self.mpr fun _ _ => rfl] at hdiscovered
  obtain ⟨files', hread, hanswer⟩ := exists_fst_outcome_scan_eq hpossible hu.prepared hdiscovered
  have hreadable := readable_of_mapM hread
  rw [hu.realPath_eq,
    hsurveys.readable_spoiled hbytes hu.files_eq hu.workingDirectory_eq] at hreadable
  exact ⟨files', hread, hreadable, hreadable ▸ hanswer⟩

/-- Without these files the others are discovered again, and the scan reports what is in them. -/
theorem exists_scan_cleared
    (hv : Prepares s r directory w₁.workingDirectory (cleared w₁.files bytes) v v₁) :
    ∃ files', readable files' = unspoiled w₁ (w₁.realPath directory) paths bytes ∧
      (outcome (s.scan r) v).1 =
        (s.tokensIn (unspoiled w₁ (w₁.realPath directory) paths bytes)).map
          (s.report r v₁ complaints files') := by
  obtain ⟨at_, hreal, hopen, hsurveys⟩ := h.exists_surveys hw hstraight
  have hleaves := hsurveys.leavesOut_cleared hbytes
  rw [← hv.files_eq] at hleaves
  have hdiscovered :=
    hleaves.outcome_discover hw hv.workingDirectory_eq hreal hopen h.discovered
  rw [← hv.realPath_eq] at hdiscovered
  obtain ⟨files', hread, hanswer⟩ := exists_fst_outcome_scan_eq hpossible hv.prepared hdiscovered
  have hreadable := readable_of_mapM hread
  rw [hv.realPath_eq,
    hsurveys.readable_cleared hbytes hv.files_eq hv.workingDirectory_eq] at hreadable
  exact ⟨files', hreadable, hreadable ▸ hanswer⟩

end Trees

end Stages

end Account

section Isolation

/-- What the scan of a tree with spoiled files answers, next to that of the tree without them and to
the result for the tree as it was. -/
structure Isolates [Nesting.Room] (s : Scanner) (r : Repository) (w₁ : World)
    (paths complaints : List String)
    (result : ScanResult) (bytes : String → Option (List UInt8)) (u u₁ v : World) : Prop where
  /-- The same is found as without the spoiled files. -/
  same : (outcome (s.scan r) u).1.map ScanResult.findings =
    (outcome (s.scan r) v).1.map ScanResult.findings
  /-- There is a result, unless the rules name levels that cannot be counted by. -/
  answers : (∀ rule ∈ s.categorizer.rules, ∀ token path,
      (rule.classify token path).tier.isKey = true) →
    ∃ answer, (outcome (s.scan r) u).1 = .ok answer
  /-- As many files are discovered as in the tree as it was. -/
  total : ∀ answer, (outcome (s.scan r) u).1 = .ok answer →
    answer.summary.totalFiles = result.summary.totalFiles
  accounts : ∀ answer, (outcome (s.scan r) u).1 = .ok answer →
    AccountsFor u₁ paths complaints answer
  /-- The files that cannot be read are the spoiled ones and those that could not be read before. -/
  unreadable : ∀ p ∈ paths, isUnreadable u₁ p = (isUnreadable w₁ p || (bytes p).isSome)

/-- Files that cannot be read are isolated: if a scan without steps up has a result, spoiling any of
the discovered files makes it find the same as taking them out, as many files are discovered, and
the errors are those about the patterns and then one for each file that cannot be read. -/
theorem scan_isolates_unreadable [Nesting.Room]
    (hgrounded : ∀ directory w₁,
      outcome (Checkout.prepare s.copies r) w = (.ok directory, w₁) → w₁.Grounded)
    (h : outcome (s.scan r) w = (.ok result, left)) :
    ∃ directory w₁ paths complaints files,
      Stages s r w directory w₁ paths complaints files result ∧
        (s.discovery.IsStraight (w₁.realPath directory) →
          paths.Pairwise (· < ·) ∧
          (∃ at_, w₁.realPath directory = PathText.rooted at_ ∧
            complaints =
              Discovery.complaintsOf w₁.files (PathText.rooted at_) at_ s.discovery) ∧
          ∀ bytes, Spoils paths bytes → ∀ u u₁ v v₁,
            Prepares s r directory w₁.workingDirectory (spoiled w₁.files bytes) u u₁ →
            Prepares s r directory w₁.workingDirectory (cleared w₁.files bytes) v v₁ →
            Isolates s r w₁ paths complaints result bytes u u₁ v) := by
  obtain ⟨directory, w₁, paths, complaints, files, hstages⟩ := exists_stages h
  have hw := hgrounded directory w₁ hstages.prepared
  have hpossible := isPossible_of_scan hstages.prepared h
  refine ⟨directory, w₁, paths, complaints, files, hstages, fun hstraight => ?_⟩
  obtain ⟨at_, hreal, hopen, hsurveys⟩ := hstages.exists_surveys hw hstraight
  have hpaths := hsurveys.discovered
  refine ⟨hpaths.pairwise, ⟨at_, hreal, hpaths.complaints_eq⟩, ?_⟩
  intro bytes hbytes u u₁ v v₁ hu hv
  obtain ⟨filesu, hread, hreadableu, hanswer⟩ :=
    hstages.exists_scan_spoiled hw hpossible hstraight hbytes hu
  obtain ⟨filesv, hreadablev, hanswer'⟩ :=
    hstages.exists_scan_cleared hw hpossible hstraight hbytes hv
  have haccount : ∀ answer, (outcome (s.scan r) u).1 = .ok answer →
      AccountsFor u₁ paths complaints answer := by
    intro answer hok
    rw [hanswer] at hok
    obtain ⟨found, -, rfl⟩ := map_eq_ok_iff.mp hok
    exact accountsFor_report hread
  constructor
  case same =>
    rw [hanswer, hanswer']
    cases s.tokensIn (unspoiled w₁ (w₁.realPath directory) paths bytes) with
    | error e => rfl
    | ok found =>
      exact congrArg Except.ok (findings_report (hreadableu.trans hreadablev.symm) found)
  case answers =>
    intro hrules
    obtain ⟨found, hfound, -⟩ := hstages.exists_report
    rw [readable_of_mapM hstages.read] at hfound
    have hfewer : unspoiled w₁ (w₁.realPath directory) paths bytes ⊆
        paths.filterMap (readableAt w₁ (w₁.realPath directory)) :=
      (List.filter_sublist.filterMap _).subset
    obtain ⟨found', hfound'⟩ := exists_tokensIn_of_subset hrules hfewer hfound
    rw [hanswer, hfound']
    exact ⟨_, rfl⟩
  case total =>
    intro answer hok
    exact (haccount answer hok).total.trans hstages.accountsFor.total.symm
  case accounts => exact haccount
  case unreadable =>
    intro p hp
    exact hsurveys.isUnreadable_spoiled hbytes hu.files_eq hp

/-- A repository with two stylesheets, in each of which one token is referenced. -/
def twoStylesheets : FileTree :=
  ⟨[(["repo"], .directory),
    (["repo", "a.css"], .file (Text.Utf8.encode "p \x7b color: var(--a) \x7d".toList)),
    (["repo", "b.css"], .file (Text.Utf8.encode "q \x7b color: var(--a) \x7d".toList))]⟩

/-- The world of the two stylesheets is grounded. -/
theorem grounded_twoStylesheets : (World.ofFiles twoStylesheets).Grounded :=
  World.grounded_ofFiles ⟨by decide, by decide, by decide⟩

/-- A scan with a pattern that cannot be matched. -/
def halfUsable : Scanner := general ["*.css", "a**b"]

attribute [local instance] Nesting.Room.ample

/-- Discovery finds both stylesheets and complains about one pattern. -/
theorem discover_halfUsable :
    ∃ complaint, outcome (halfUsable.discovery.discover (World.ofFiles twoStylesheets) "/repo") [] =
      (.ok ["/repo/a.css", "/repo/b.css"], [complaint]) := by
  have hroot : Discovery.openRoot (World.ofFiles twoStylesheets) "/repo" = .ok ("/repo", ["repo"]) :=
    rfl
  have hways : halfUsable.discovery.includePatterns.mapM
      (Discovery.waysOfPattern twoStylesheets "/repo" ["repo"]) =
        .ok [[["a.css"], ["b.css"]], []] := rfl
  have hcomplaints : (Discovery.complaintsOf twoStylesheets "/repo" ["repo"]
      halfUsable.discovery).length = 1 := by
    decide +kernel
  obtain ⟨complaint, hcomplaint⟩ := List.length_eq_one_iff.mp hcomplaints
  refine ⟨complaint, ?_⟩
  rw [← hcomplaint]
  -- Sorting does not reduce; but the pattern already finds the paths in order.
  refine Discovery.outcome_discover_of_sorted hroot hways ?_ (by decide +kernel) (by decide)
  show ∀ way ∈ [["a.css"], ["b.css"]], _
  rw [List.forall_mem_cons, List.forall_mem_singleton]
  exact ⟨⟨true, rfl⟩, ⟨true, rfl⟩⟩

/-- None of its patterns takes a step up. -/
theorem isStraight_halfUsable (root : String) : halfUsable.discovery.IsStraight root := by
  refine Discovery.isStraight_ofPatterns ?_ root
  rw [List.forall_mem_cons, List.forall_mem_singleton]
  exact ⟨⟨"*.css", by decide⟩, ⟨"a**b", by decide⟩⟩

/-- A scan of the two stylesheets goes through all stages. -/
theorem exists_stages_halfUsable :
    ∃ complaint files result, Stages halfUsable (Repository.ofDirectory "/repo" "repo")
      (World.ofFiles twoStylesheets) "/repo" (World.ofFiles twoStylesheets)
      ["/repo/a.css", "/repo/b.css"] [complaint] files result := by
  obtain ⟨complaint, hdiscovered⟩ := discover_halfUsable
  obtain ⟨files, hread⟩ := exists_mapM_eq_ok
    fun path (_ : path ∈ ["/repo/a.css", "/repo/b.css"]) =>
      SourceFile.exists_read (World.ofFiles twoStylesheets) "/repo" path
  have htokens : (halfUsable.tokensIn (["/repo/a.css", "/repo/b.css"].filterMap
      (readableAt (World.ofFiles twoStylesheets) "/repo"))).toOption.isSome = true := by
    decide +kernel
  obtain ⟨found, hfound⟩ := Option.isSome_iff_exists.mp htokens
  have hsummed := halfUsable.resultOf_eq_map (Repository.ofDirectory "/repo" "repo")
    (World.ofFiles twoStylesheets) [complaint] files
  rw [readable_of_mapM hread, eq_ok_of_toOption hfound] at hsummed
  exact ⟨complaint, files, _, rfl, hdiscovered, hread, hsummed⟩

/-- Bytes that are no text, for the second stylesheet. -/
def secondSpoiled (path : String) : Option (List UInt8) :=
  if path = "/repo/b.css" then some [0xFF] else none

/-- The second of the two files is spoiled. -/
theorem spoils_secondSpoiled : Spoils ["/repo/a.css", "/repo/b.css"] secondSpoiled := by
  have hone : ∀ p b, secondSpoiled p = some b → p = "/repo/b.css" ∧ b = [0xFF] := by
    intro p b h
    unfold secondSpoiled at h
    split at h
    · exact ⟨‹_›, (Option.some.inj h).symm⟩
    · cases h
  constructor
  case discovered =>
    intro p b h
    obtain ⟨rfl, -⟩ := hone p b h
    decide
  case undecodable =>
    intro p b h
    obtain ⟨-, rfl⟩ := hone p b h
    exact ⟨_, rfl⟩

/-- If the second stylesheet is spoiled, the token in the first one is found as without it. One of
two files is not scanned, and there are two errors: about the pattern and about that file. -/
theorem scan_isolates_unreadable_second :
    (World.ofFiles twoStylesheets).Grounded ∧
      (∃ result left, outcome (halfUsable.scan (Repository.ofDirectory "/repo" "repo"))
        (World.ofFiles twoStylesheets) = (.ok result, left) ∧ result.summary.totalFiles = 2) ∧
      halfUsable.discovery.IsStraight "/repo" ∧
      Spoils ["/repo/a.css", "/repo/b.css"] secondSpoiled ∧
      ∃ spoiledAnswer clearedAnswer,
        (outcome (halfUsable.scan (Repository.ofDirectory "/repo" "repo"))
          (World.ofFiles (spoiled twoStylesheets secondSpoiled))).1 = .ok spoiledAnswer ∧
        (outcome (halfUsable.scan (Repository.ofDirectory "/repo" "repo"))
          (World.ofFiles (cleared twoStylesheets secondSpoiled))).1 = .ok clearedAnswer ∧
        spoiledAnswer.findings = clearedAnswer.findings ∧
        spoiledAnswer.summary.totalFiles = 2 ∧
        spoiledAnswer.summary.totalFiles - spoiledAnswer.summary.scannedFiles = 1 ∧
        spoiledAnswer.errors.length = 2 := by
  have hworld := grounded_twoStylesheets
  obtain ⟨complaint, files, result, hstages⟩ := exists_stages_halfUsable
  obtain ⟨left, houtcome⟩ := hstages.exists_outcome rfl
  have hstraight := isStraight_halfUsable "/repo"
  -- Both trees are prepared where the first one is.
  obtain ⟨at_, -, -, hsurveys⟩ := hstages.exists_surveys hworld hstraight
  have hspoiled : Prepares halfUsable (Repository.ofDirectory "/repo" "repo") "/repo" "/"
      (spoiled twoStylesheets secondSpoiled) (World.ofFiles (spoiled twoStylesheets secondSpoiled))
      (World.ofFiles (spoiled twoStylesheets secondSpoiled)) :=
    prepares_of_local rfl hworld.tree (hsurveys.leavesOut_spoiled spoils_secondSpoiled).thins
      hstages.prepared
  have hcleared : Prepares halfUsable (Repository.ofDirectory "/repo" "repo") "/repo" "/"
      (cleared twoStylesheets secondSpoiled) (World.ofFiles (cleared twoStylesheets secondSpoiled))
      (World.ofFiles (cleared twoStylesheets secondSpoiled)) :=
    prepares_of_local rfl hworld.tree (hsurveys.leavesOut_cleared spoils_secondSpoiled).thins
      hstages.prepared
  obtain ⟨directory, w₁, paths, complaints, files', hstages', hisolated⟩ :=
    scan_isolates_unreadable
      (fun directory w₁ h => (eq_of_outcome hstages.prepared h).2 ▸ hworld) houtcome
  obtain ⟨rfl, rfl⟩ := eq_of_outcome hstages.prepared hstages'.prepared
  obtain ⟨rfl, rfl⟩ := eq_of_outcome hstages.discovered hstages'.discovered
  obtain ⟨-, -, hisolates⟩ := hisolated hstraight
  have hisolates := hisolates secondSpoiled spoils_secondSpoiled _ _ _ _ hspoiled hcleared
  obtain ⟨answer, hanswer⟩ := hisolates.answers nofun
  have hsame := hisolates.same
  rw [hanswer] at hsame
  obtain ⟨answer', hanswer', hfindings⟩ := map_eq_ok_iff.mp hsame.symm
  have haccounts := hisolates.accounts answer hanswer
  have hunreadable : (["/repo/a.css", "/repo/b.css"].filter
      (isUnreadable (World.ofFiles (spoiled twoStylesheets secondSpoiled)))).length = 1 := by
    rw [List.filter_congr hisolates.unreadable]
    decide +kernel
  refine ⟨hworld, ⟨result, left, houtcome, hstages.accountsFor.total⟩, hstraight,
    spoils_secondSpoiled, answer, answer', hanswer, hanswer', hfindings.symm, haccounts.total,
    ?_, ?_⟩
  · exact haccounts.missed.trans (congrArg Nat.cast hunreadable)
  · rw [haccounts.errors, List.length_append, length_complaintAt, hunreadable]
    rfl

end Isolation

end Scanner

end DesignTokens
