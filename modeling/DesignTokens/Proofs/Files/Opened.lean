import DesignTokens.Proofs.Files.Discovery

/-!
# Opened directories

A real path is opened, unless it is too long to be looked at or there is no directory. Below an
opened directory, patterns that can be read and stay within the limits are all answered, so
discovery lists files.
-/

namespace DesignTokens

namespace Discovery

variable {d : Discovery} {w : World} {root top : String} {at_ : Location}

/-- A text with no more pairs of braces than are replaced at a place. -/
def IsPattern [Nesting.Room] (site : Nesting.Site) (v : Value) : Prop :=
  ∃ p : Spelling, v = .text p ∧ Braces.pairs (Wildcard.characters p) ≤ site.limit

/-- Rules whose patterns can all be read. -/
structure IsReadable [Nesting.Room] (d : Discovery) : Prop where
  included : ∀ v ∈ d.includePatterns, IsPattern .expansion v
  excluded : ∀ v ∈ d.excludePatterns, IsPattern .test v

/-- Rules whose include patterns are within the limits below a root and are not the root itself. -/
def IsModest [Nesting.Room] (d : Discovery) (root : String) : Prop :=
  ∀ p : Spelling, .text p ∈ d.includePatterns →
    ∀ expanded ∈ Braces.expand (Wildcard.characters p), Glob.IsModest root (String.ofList expanded)

theorem exists_matchesAny [Nesting.Room] {patterns : List Value}
    (h : ∀ v ∈ patterns, IsPattern .test v) (path : List Char) :
    ∃ excluded, Wildcard.matchesAny path patterns = .ok excluded := by
  induction patterns with
  | nil => exact ⟨false, rfl⟩
  | cons v patterns ih =>
    obtain ⟨p, rfl, hpairs⟩ := h v List.mem_cons_self
    have hexpand : Braces.expansionsAt .test (Wildcard.characters p) =
        .ok (Braces.expand (Wildcard.characters p)) := if_neg (Nat.not_lt.mpr hpairs)
    obtain ⟨excluded, hexcluded⟩ := ih fun v hv => h v (List.mem_cons_of_mem _ hv)
    unfold Wildcard.matchesAny
    simp only [hexpand, hexcluded, bind, Except.bind]
    split
    · exact ⟨true, rfl⟩
    · exact ⟨excluded, rfl⟩

/-- Every file can be judged. -/
theorem IsReadable.exists_keeps [Nesting.Room] (h : d.IsReadable) (root : String)
    (way : List String) :
    ∃ kept, d.keeps root way = .ok kept := by
  obtain ⟨excluded, hexcluded⟩ := exists_matchesAny h.excluded (PathText.join way).toList
  unfold keeps
  rw [hexcluded]
  cases excluded <;> exact ⟨_, rfl⟩

/-- Every include pattern is answered. -/
theorem IsReadable.exists_ways [Nesting.Room] (h : d.IsReadable) (hmodest : d.IsModest root)
    (t : FileTree)
    (at_ : Location) {pattern : Value} (hpattern : pattern ∈ d.includePatterns) :
    ∃ ways, waysOfPattern t root at_ pattern = .ok ways := by
  obtain ⟨p, rfl, hpairs⟩ := h.included pattern hpattern
  have hexpand : Braces.expansions (Wildcard.characters p) =
      .ok (Braces.expand (Wildcard.characters p)) := if_neg (Nat.not_lt.mpr hpairs)
  have hanswered : ∀ expanded ∈ Braces.expand (Wildcard.characters p),
      ∃ ways, waysOf t root at_ expanded = .ok ways := by
    intro expanded hexpanded
    obtain ⟨answer, hanswer⟩ :=
      Glob.exists_files_eq_ok t at_ (hmodest p hpattern expanded hexpanded)
    unfold waysOf
    rw [hanswer]
    exact ⟨_, rfl⟩
  obtain ⟨found, hfound⟩ := exists_mapM_eq_ok hanswered
  unfold waysOfPattern
  simp only [hexpand, hfound, bind, Except.bind]
  exact ⟨_, rfl⟩

/-- Below an opened root, files are discovered. -/
theorem IsReadable.exists_outcome [Nesting.Room] (h : d.IsReadable)
    (hroot : openRoot w root = .ok (top, at_))
    (hmodest : d.IsModest top) :
    ∃ paths complaints, outcome (d.discover w root) [] = (.ok paths, complaints) := by
  obtain ⟨found, hfound⟩ := exists_mapM_eq_ok fun pattern hpattern =>
    h.exists_ways hmodest w.files at_ hpattern
  exact exists_outcome_of_ways hroot hfound fun way _ => h.exists_keeps top way

/-- The real path of a path without detours is the path itself. -/
theorem realPath_rooted {names : List String} (h : ∀ s ∈ names, PathText.IsProper s) (w : World) :
    w.realPath (PathText.rooted names) = PathText.rooted names := by
  have happend : PathText.append w.workingDirectory (PathText.rooted names) =
      PathText.rooted names := if_pos (PathText.isAbsolute_rooted names)
  have hsteps : (PathText.segments (PathText.rooted names)).foldl (PathText.step true) [] =
      names.reverse := by
    by_cases hne : names = []
    · subst hne
      decide
    · rw [PathText.segments_rooted hne fun s hs => (h s hs).1.2, List.foldl_cons,
        PathText.foldl_step_of_isProper h]
      exact List.append_nil _
  unfold World.realPath
  simp only [happend, hsteps, List.reverse_reverse]
  rfl

end Discovery

end DesignTokens
