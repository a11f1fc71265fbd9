import DesignTokens.Files.Discovery
import DesignTokens.Proofs.Files.Location

/-!
# Roots of repositories

In a world whose files form a tree and whose working directory is a location, the real path of a
path that leads somewhere is the path of the location it leads to. So the root of an opened
repository is the path of a directory.
-/

namespace DesignTokens

namespace PathText

/-- The segments of two paths with a slash between them are the segments of both. -/
theorem segments_append_slash (path rest : String) :
    segments (path ++ "/" ++ rest) = segments path ++ segments rest := by
  unfold segments Text.fieldsOf
  rw [String.toList_append, String.toList_append, List.append_assoc, ← List.map_append,
    ← Text.splitOn_append_sep]
  rfl

theorem slash_notMem_of_mem_segments {path s : String} (h : s ∈ segments path) :
    '/' ∉ s.toList := by
  obtain ⟨field, hfield, rfl⟩ := List.mem_map.mp h
  rw [String.toList_ofList]
  exact Text.notMem_of_mem_splitOn hfield

/-- The segments of a relative path seen from a location, apart from steps in place. -/
theorem foldl_step_segments_append {names : List String} (h : ∀ s ∈ names, IsProper s)
    {path : String} (hpath : isAbsolute path = false) :
    (segments (append (rooted names) path)).foldl (step true) [] =
      (segments path).foldl (step true) names.reverse := by
  have hskip : step true [] "" = [] := by decide
  rw [append_rooted_of_relative (fun s hs => (h s hs).1) hpath]
  by_cases hroot : names = []
  · subst hroot
    have hcut : segments ("/" ++ path) = segments "" ++ segments path :=
      segments_append_slash "" path
    rw [if_pos rfl, hcut, List.foldl_append]
    rfl
  · rw [if_neg hroot, segments_append_slash, List.foldl_append,
      segments_rooted hroot fun s hs => (h s hs).1.2, List.foldl_cons, hskip,
      foldl_step_of_isProper h, List.append_nil]

theorem tidy_rooted {names : List String} (h : ∀ s ∈ names, IsProper s) :
    tidy (rooted names) = rooted names := by
  unfold tidy
  rw [root_rooted fun s hs => (h s hs).1, plainSegments_rooted h]
  rfl

end PathText

namespace World

/-- A world with a tree of files, in which the working directory is written as a location. -/
structure Grounded (w : World) : Prop where
  tree : w.files.WellFormed
  path : w.workingDirectory = PathText.rooted w.directory
  names : ∀ name ∈ w.directory, PathText.IsProper name

/-- A world with nothing but files, seen from their root. -/
def ofFiles (t : FileTree) : World where
  files := t
  workingDirectory := "/"
  home := "/"
  homes := []
  configVariable := none
  designSystemVariable := none
  now := default
  scanMilliseconds := 0
  git := default
  verbose := false
  calls := []
  output := []
  warnings := []

theorem grounded_ofFiles {t : FileTree} (ht : t.WellFormed) : (ofFiles t).Grounded where
  tree := ht
  path := show "/" = PathText.rooted (PathText.plainSegments "/") by decide
  names := show ∀ name ∈ PathText.plainSegments "/", PathText.IsProper name by decide

variable {w : World} {at_ : Location}

/-- A real path is the path of proper names. -/
theorem exists_realPath_eq (w : World) (path : String) :
    ∃ names, w.realPath path = PathText.rooted names ∧ ∀ s ∈ names, PathText.IsProper s := by
  refine ⟨_, rfl, fun s hs => ?_⟩
  exact PathText.isProper_foldl_step (fun s hs => absurd hs List.not_mem_nil)
    (fun s hs => PathText.slash_notMem_of_mem_segments hs) s (List.mem_reverse.mp hs)

namespace Grounded

/-- The real path of a path that leads somewhere is the path of where it leads. -/
theorem realPath_eq {path : String} (hw : w.Grounded)
    (h : w.files.locate w.directory path = .ok at_) : w.realPath path = PathText.rooted at_ := by
  have hsteps : (PathText.segments (PathText.append w.workingDirectory path)).foldl
      (PathText.step true) [] = at_.reverse := by
    unfold FileTree.locate at h
    split at h
    · cases h
    split at h
    · cases h
    by_cases hpath : PathText.isAbsolute path = true
    · rw [if_pos hpath] at h
      have happend : PathText.append w.workingDirectory path = path := by
        unfold PathText.append
        rw [if_pos hpath]
      rw [happend, hw.tree.reverse_of_walk (fun s hs => absurd hs List.not_mem_nil) h]
      rfl
    · rw [if_neg hpath] at h
      rw [hw.path, PathText.foldl_step_segments_append hw.names (Bool.eq_false_iff.mpr hpath),
        hw.tree.reverse_of_walk hw.names h]
  unfold realPath
  simp only [hsteps, List.reverse_reverse]
  rfl

end Grounded

end World

namespace Discovery

variable {w : World} {at_ : Location} {root top : String}

/-- The root of an opened repository is the path of a directory. -/
theorem of_openRoot (hw : w.Grounded) (h : openRoot w root = .ok (top, at_)) :
    top = PathText.rooted at_ ∧ w.files.hasDirectory at_ = true := by
  unfold openRoot at h
  cases hexpand : expandRoot w root with
  | error e =>
    rw [hexpand] at h
    cases h
  | ok path =>
    rw [hexpand] at h
    simp only [bind, Except.bind] at h
    split at h
    · cases h
    · cases h
    · rename_i found hlocate
      split at h
      · rename_i hdirectory
        obtain ⟨rfl, rfl⟩ := Prod.mk.inj (Except.ok.inj h)
        exact ⟨hw.realPath_eq hlocate, hdirectory⟩
      · cases h

/-- A path from the root names no home directory. -/
theorem expandRoot_rooted {names : List String} (h : ∀ s ∈ names, PathText.IsProper s)
    (w : World) : expandRoot w (PathText.rooted names) = .ok (PathText.rooted names) := by
  have hhome : w.expandHome (PathText.rooted names) = PathText.rooted names := by
    unfold World.expandHome
    rw [PathText.toList_rooted]
    split
    · rename_i hlist
      cases hlist
    · rfl
  unfold expandRoot
  simp only [PathText.tidy_rooted h, hhome]
  rw [if_neg]
  rw [PathText.toList_rooted, List.head?_cons]
  decide

/-- A path without detours is opened where it leads. -/
theorem locate_of_openRoot_rooted {names : List String}
    (hnames : ∀ s ∈ names, PathText.IsProper s)
    (h : openRoot w (PathText.rooted names) = .ok (top, at_)) :
    w.files.locate w.directory (PathText.rooted names) = .ok at_ := by
  unfold openRoot at h
  rw [expandRoot_rooted hnames w] at h
  simp only [bind, Except.bind] at h
  split at h
  · cases h
  · cases h
  · rename_i found hlocate
    split at h
    · obtain ⟨-, rfl⟩ := Prod.mk.inj (Except.ok.inj h)
      exact hlocate
    · cases h

/-- A path without detours is opened at the location that it spells. -/
theorem eq_of_openRoot_rooted {names : List String} (hnames : ∀ s ∈ names, PathText.IsProper s)
    (hw : w.Grounded) (h : openRoot w (PathText.rooted names) = .ok (top, at_)) :
    names = at_ := by
  have hlocate := locate_of_openRoot_rooted hnames h
  have hsegments : ∀ s ∈ names, PathText.IsSegment s := fun s hs => (hnames s hs).1
  rw [FileTree.locate_rooted hsegments (FileTree.utf8ByteSize_le_of_locate hlocate)] at hlocate
  have hway := hw.tree.reverse_of_walk (fun s hs => absurd hs List.not_mem_nil) hlocate
  rw [List.reverse_nil, PathText.foldl_step_of_isProper hnames, List.append_nil] at hway
  exact (List.reverse_injective hway).symm

/-- The path of a directory that can be followed is opened there. -/
theorem openRoot_rooted (hw : w.Grounded) (hdirectory : w.files.hasDirectory at_ = true)
    (hlocate : w.files.locate w.directory (PathText.rooted at_) = .ok at_) :
    openRoot w (PathText.rooted at_) = .ok (PathText.rooted at_, at_) := by
  have hnames := hw.tree.isProper_of_isSome (FileTree.isSome_of_hasDirectory hdirectory)
  unfold openRoot
  rw [expandRoot_rooted hnames w]
  simp only [bind, Except.bind, hlocate, hdirectory, if_true, hw.realPath_eq hlocate]

end Discovery

end DesignTokens
