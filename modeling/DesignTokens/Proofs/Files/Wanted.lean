import DesignTokens.Proofs.Files.Discovery
import DesignTokens.Proofs.Files.Made

/-!
# Files by their extension

The extensions that are wanted only leave out some of the paths that are discovered without them,
and leave the complaints as they are. They are asked of the path as a pattern spells it, but the
path below the root has the same extension: a way to a file ends with the name of the file.
-/

namespace DesignTokens

theorem PathText.extension_congr {path other : String} (h : baseName path = baseName other) :
    extension path = extension other := by
  unfold extension
  rw [h]

namespace FileTree

variable {t : FileTree} {at_ location : Location}

/-- A way to a file ends with the name of the file. -/
theorem WellFormed.exists_eq_concat_of_walk (ht : t.WellFormed) {way : List String} {name : String}
    (h : t.walk at_ (way ++ [name]) = .ok location) (hfile : t.hasFile location = true) :
    ∃ above, location = above ++ [name] := by
  have hnot := hasDirectory_eq_false_of_hasFile hfile
  rw [walk_append_eq_bind] at h
  obtain ⟨next, -, hlast⟩ := bind_eq_ok_iff.mp h
  obtain ⟨hdirectory, ⟨-, rfl⟩ | ⟨-, rfl⟩ | ⟨-, -, -, rfl⟩⟩ := walk_singleton_eq_ok_iff.mp hlast
  · rw [hnot] at hdirectory
    cases hdirectory
  · rw [hasDirectory_dropLast ht (isSome_of_hasDirectory hdirectory)] at hnot
    cases hnot
  · exact ⟨next, rfl⟩

/-- No file is above a directory. -/
theorem WellFormed.not_prefix_of_hasFile (ht : t.WellFormed)
    (hdirectory : t.hasDirectory at_ = true) (hfile : t.hasFile location = true) :
    ¬location <+: at_ := by
  have hnot := hasDirectory_eq_false_of_hasFile hfile
  rintro ⟨way, rfl⟩
  have habove : t.hasDirectory location = true := by
    by_cases hway : way = []
    · rwa [hway, List.append_nil] at hdirectory
    · exact hasDirectory_of_append ht (isSome_of_hasDirectory hdirectory) hway
  rw [hnot] at habove
  cases habove

end FileTree

/-- The path of a file that a pattern finds and its path below the root have one extension. -/
theorem Glob.Finds.extension_relative_eq [Nesting.Room] {t : FileTree} {at_ location : Location}
    {root : String}
    {pattern : String} {way : List String} (ht : t.WellFormed)
    (hdirectory : t.hasDirectory at_ = true) (h : Finds t root at_ pattern way location) :
    PathText.extension (PathText.relative (PathText.rooted location) (PathText.rooted at_)) =
      PathText.extension (fullPath (PathText.rooted at_) way) := by
  have hsegments := h.isSegment ht hdirectory
  have hwalk := h.walk_eq ht hdirectory
  rw [h.fullPath_eq ht hdirectory]
  obtain ⟨relative, parsed, -, -, hfile, -⟩ := h
  have hnames := ht.isProper_of_isSome (FileTree.isSome_of_hasFile hfile)
  have hbase := ht.isProper_of_isSome (FileTree.isSome_of_hasDirectory hdirectory)
  have hnot := ht.not_prefix_of_hasFile hdirectory hfile
  generalize at_ ++ way = spelled at hsegments hwalk
  cases spelled using List.reverseRecOn with
  | nil =>
    obtain rfl := Except.ok.inj hwalk
    exact absurd List.nil_prefix hnot
  | append_singleton before name =>
    obtain ⟨above, rfl⟩ := ht.exists_eq_concat_of_walk hwalk hfile
    apply PathText.extension_congr
    rw [PathText.baseName_rooted_concat hsegments]
    exact PathText.baseName_relative_rooted (fun s hs => (hbase s hs).1) hnames hnot

namespace Discovery

variable {d : Discovery} {w : World} {root : String}

/-- The rules without the extensions that are wanted. -/
def unfiltered (d : Discovery) : Discovery := { d with extensions := none }

variable [Nesting.Room]

/-- A file is kept if it is kept by its path below the root and its extension is wanted. -/
theorem keeps_eq_map (d : Discovery) (root : String) (way : List String) :
    d.keeps root way =
      (d.unfiltered.keeps root way).map (· && d.isWanted (Glob.fullPath root way)) := by
  have hexclude : d.unfiltered.excludePatterns = d.excludePatterns := rfl
  unfold keeps
  rw [hexclude]
  cases Wildcard.matchesAny (PathText.join way).toList d.excludePatterns with
  | error e => rfl
  | ok excluded => cases excluded <;> rfl

/-- The extensions leave out paths of those that are selected without them. -/
theorem select_eq_map_filter (d : Discovery) (root : String) (ways : List (List String)) :
    d.select root ways = (d.unfiltered.select root ways).map (List.filter d.isWanted) := by
  have hkept : ways.eraseDups.filterM (d.keeps root) =
      (ways.eraseDups.filterM (d.unfiltered.keeps root)).map
        (List.filter fun way => d.isWanted (Glob.fullPath root way)) := by
    rw [← filterM_and]
    exact congrArg (List.filterM · _) (funext (d.keeps_eq_map root))
  unfold select
  rw [hkept]
  cases ways.eraseDups.filterM (d.unfiltered.keeps root) with
  | error e => rfl
  | ok kept =>
    refine congrArg Except.ok ?_
    rw [← mergeSort_filter, List.filter_map]
    rfl

/-- What is discovered with the extensions that are wanted is what is discovered without them and
has such an extension; the complaints are the same. -/
theorem outcome_discover_eq_filter (d : Discovery) (w : World) (path : String) :
    outcome (d.discover w path) [] =
      ((outcome (d.unfiltered.discover w path) []).1.map (List.filter d.isWanted),
        (outcome (d.unfiltered.discover w path) []).2) := by
  unfold discover
  cases openRoot w path with
  | error e => rfl
  | ok opened =>
    obtain ⟨top, at_⟩ := opened
    show outcome (d.findings w.files top at_ >>= fun found => ofExcept (d.select top found)) [] =
      ((outcome (d.findings w.files top at_ >>= fun found =>
          ofExcept (d.unfiltered.select top found)) []).1.map (List.filter d.isWanted),
        (outcome (d.findings w.files top at_ >>= fun found =>
          ofExcept (d.unfiltered.select top found)) []).2)
    rcases hfound : outcome (d.findings w.files top at_) [] with ⟨e | found, notes⟩
    · simp only [outcome_bind_of_error hfound]
      rfl
    · simp only [outcome_bind_of_ok hfound, d.select_eq_map_filter top found]
      cases d.unfiltered.select top found <;> rfl

/-- A discovered path has the extension of its path below the root. -/
theorem Discovered.extension_relative_eq {t : FileTree} {at_ : Location}
    {paths complaints : List String}
    (h : Discovered d t (PathText.rooted at_) at_ paths complaints) (ht : t.WellFormed)
    (hdirectory : t.hasDirectory at_ = true) {p : String} (hp : p ∈ paths)
    (workingDirectory : String) :
    PathText.extension (PathText.relative (PathText.absolute workingDirectory p)
      (PathText.rooted at_)) = PathText.extension p := by
  obtain ⟨way, location, ⟨pattern, -, expanded, -, hfinds⟩, -, rfl⟩ := (h.mem_iff p).mp hp
  rw [hfinds.absolute_eq ht hdirectory, hfinds.extension_relative_eq ht hdirectory]

end Discovery

end DesignTokens
