import DesignTokens.Proofs.Files.Opened
import DesignTokens.Proofs.Scan.Account
import DesignTokens.Proofs.Scan.Setbacks
import DesignTokens.Proofs.Token.Levels
import DesignTokens.Proofs.Token.Place

/-!
# A result for each repository

A repository that is prepared and can be opened is scanned; one that is unavailable, or whose
directory is not there, has a failed result, and the next one is scanned. So a scan of repositories
gives a result for each of them, in order. Two causes are not caught and end the whole scan: more
directories are missing above a copy than are made one after the other, or the path of a prepared
directory is too long to be looked at.
-/

namespace DesignTokens

/-- A file is read, or there is a complaint. -/
theorem SourceFile.exists_read (w : World) (root path : String) :
    ∃ file, SourceFile.read w root path = .ok file := by
  unfold SourceFile.read World.textOf
  cases w.files.read w.directory path with
  | error e => exact ⟨_, rfl⟩
  | ok bytes =>
    dsimp only
    cases Text.Utf8.decode bytes with
    | error fault => exact ⟨_, rfl⟩
    | ok text => exact ⟨_, rfl⟩

namespace Scanner

variable {s : Scanner} {r : Repository} {rs : List Repository} {w w₁ left : World}
  {result : ScanResult} {directory : String}

/-- A scanner with patterns that can be read, definitions whose levels can be counted by, and a
directory for copies. -/
structure IsReady [Nesting.Room] (s : Scanner) : Prop where
  discovery : s.discovery.IsReadable
  categorizer : s.categorizer.IsCounting
  copies : Checkout.IsPathPart s.copies

/-- Usages whose tiers can be keys are summed up. -/
theorem exists_result_of_usagesIn {files : List SourceFile} {us : List Usage}
    (husages : s.usagesIn (files.filterMap SourceFile.readable?) = .ok us)
    (hkeys : ∀ u ∈ us, u.tier.isKey = true) (r : Repository) (w : World)
    (complaints : List String) : ∃ result, s.resultOf r w complaints files = .ok result := by
  obtain ⟨tiers, htiers⟩ := Usage.exists_tierTotals (Usage.isKey_tier_of_mem_aggregate hkeys)
  unfold resultOf summarize
  simp only [husages, htiers, bind, Except.bind]
  exact ⟨_, rfl⟩

/-- Whatever was read is summed up. -/
theorem IsReady.exists_result [Nesting.Room] (hs : s.IsReady) (r : Repository) (w : World)
    (complaints : List String) (files : List SourceFile) :
    ∃ result, s.resultOf r w complaints files = .ok result := by
  have hjudged : ∀ path : String, ∀ c ∈ some s.categorizer, ∀ token, ∃ category,
      c.categorize token (some path) = .ok category := by
    intro path c hc token
    obtain rfl := Option.some.inj hc
    exact Categorizer.exists_categorize hs.categorizer.readable token (some path)
  obtain ⟨found, hfound⟩ := exists_mapM_eq_ok fun (file : String × String)
      (_ : file ∈ files.filterMap SourceFile.readable?) =>
    Usage.exists_inFile s.formats file.2 file.1 s.contextLength (some s.categorizer)
      (hjudged file.1)
  have husages : s.usagesIn (files.filterMap SourceFile.readable?) = .ok found.flatten := by
    unfold usagesIn
    rw [hfound]
    rfl
  refine exists_result_of_usagesIn husages (fun u hu => ?_) r w complaints
  obtain ⟨us, hus, hu⟩ := List.mem_flatten.mp hu
  obtain ⟨file, -, hfile⟩ := (mem_iff_of_mapM hfound).mp hus
  exact Usage.isKey_tier_of_inFile hs.categorizer hfile u hu

/-- A repository whose directory is opened goes through all stages. -/
theorem IsReady.exists_stages [Nesting.Room] (hs : s.IsReady)
    (hprepared : outcome (Checkout.prepare s.copies r) w = (.ok directory, w₁))
    {at_ : Location}
    (hroot : Discovery.openRoot w₁ (w₁.realPath directory) = .ok (w₁.realPath directory, at_))
    (hmodest : s.discovery.IsModest (w₁.realPath directory)) :
    ∃ paths complaints files result, Stages s r w directory w₁ paths complaints files result := by
  obtain ⟨paths, complaints, hdiscovered⟩ := hs.discovery.exists_outcome hroot hmodest
  obtain ⟨files, hfiles⟩ := exists_mapM_eq_ok fun path (_ : path ∈ paths) =>
    SourceFile.exists_read w₁ (w₁.realPath directory) path
  obtain ⟨result, hresult⟩ := hs.exists_result r w₁ complaints files
  exact ⟨paths, complaints, files, result, hprepared, hdiscovered, hfiles, hresult⟩

/-- What ends the scan of all repositories: too many directories are missing above a copy, or the
path of a prepared directory is too long. -/
inductive Breaks [Nesting.Room] (s : Scanner) (r : Repository) (w : World) : Prop
  | deep {w₁ : World}
    (h : outcome (Checkout.prepare s.copies r) w = (.error (.tooDeep .directories), w₁)) :
    Breaks s r w
  | long {directory : String} {w₁ : World}
    (hprepared : outcome (Checkout.prepare s.copies r) w = (.ok directory, w₁))
    (hlong : w₁.files.locate w₁.directory (w₁.realPath directory) = .error .nameTooLong) :
    Breaks s r w

/-- Whether a repository breaks the scan, computed from its preparation. -/
def breaks [Nesting.Room] (s : Scanner) (r : Repository) (w : World) : Bool :=
  match outcome (Checkout.prepare s.copies r) w with
  | (.error (.tooDeep .directories), _) => true
  | (.error _, _) => false
  | (.ok directory, w₁) =>
    match w₁.files.locate w₁.directory (w₁.realPath directory) with
    | .error .nameTooLong => true
    | _ => false

/-- Whether a repository ends the scan can be computed. -/
theorem breaks_iff [Nesting.Room] : s.breaks r w = true ↔ s.Breaks r w := by
  unfold breaks
  constructor
  · intro h
    split at h
    · rename_i hdeep
      exact .deep hdeep
    · cases h
    · rename_i hprepared
      split at h
      · rename_i hlong
        exact .long hprepared hlong
      · cases h
  · rintro (⟨hdeep⟩ | ⟨hprepared, hlong⟩)
    · rw [hdeep]
    · simp only [hprepared, hlong]

instance [Nesting.Room] (s : Scanner) (r : Repository) (w : World) : Decidable (s.Breaks r w) :=
  decidable_of_iff _ breaks_iff

/-- The line that announces the scan of a repository. -/
def announcement (r : Repository) : String :=
  Terminal.paint Terminal.grey ("📂 Scanning repository: " ++ r.name.displayString)

/-- The repositories with the worlds in which their scans start, one after the other. -/
def visits [Nesting.Room] (s : Scanner) : List Repository → World → List (Repository × World)
  | [], _ => []
  | r :: rs, w => (r, w.said (announcement r)) :: s.visits rs (outcome (s.scanOrFail r) w).2

/-- The line that announces the scan. -/
def opening : String := Terminal.paint Terminal.bold "🔍 Starting token usage scan..."

/-- The scan of a list announces itself and then goes through the list. -/
theorem outcome_scanAll [Nesting.Room] (s : Scanner) (rs : List Repository) (w : World) :
    outcome (s.scanAll rs) w = outcome (rs.mapM s.scanOrFail) (w.said opening) :=
  outcome_bind_of_ok (outcome_say opening w) _

/-- A scanner with a directory for copies. -/
def shelving : Scanner := { general ["*.css"] with copies := .text "/copies" }

attribute [local instance] Nesting.Room.ample

/-- The one pattern of the scanner, below any root. -/
theorem relativePattern_shelving {root relative : String} {p : Spelling} {expanded : List Char}
    (hp : .text p ∈ shelving.discovery.includePatterns)
    (hexpanded : expanded ∈ Braces.expand (Wildcard.characters p))
    (hbelow : Glob.relativePattern root (String.ofList expanded) = .ok relative) :
    relative = "*.css" := by
  obtain rfl := Value.text.inj (List.mem_singleton.mp hp)
  exact Discovery.eq_of_relativePattern_expand (by decide) (by decide) (by decide) hexpanded hbelow

/-- A directory that is not there, and one that is. -/
def goneAndRepo : List Repository :=
  [Repository.ofDirectory "/gone" "gone", Repository.ofDirectory "/repo" "repo"]

section TooLong

variable {name : String}

end TooLong

end Scanner

end DesignTokens
