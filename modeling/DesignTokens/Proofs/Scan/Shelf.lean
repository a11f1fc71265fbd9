import DesignTokens.Proofs.Files.Search
import DesignTokens.Scan.Scanner

/-!
# Where copies are

The copy of a remote repository is in a directory with its name in the directory for copies. Where
that is can be read off the texts, and so can the path that is scanned and the path of the directory
that is made first: the one for copies.
-/

namespace DesignTokens

/-- A world in which the working directory is written as a location. -/
structure World.Anchored (w : World) : Prop where
  path : w.workingDirectory = PathText.rooted w.directory
  names : ∀ name ∈ w.directory, PathText.IsProper name

namespace PathText

variable {names : List String} {path name : String}

theorem root_append_of_relative (h : ∀ s ∈ names, IsSegment s) (hpath : isAbsolute path = false) :
    root (append (rooted names) path) = "/" := by
  rw [append_rooted_of_relative h hpath]
  split
  · have hchars : ("/" ++ path).toList = '/' :: path.toList := String.toList_append
    exact root_eq_slash hchars (by simpa [isAbsolute] using hpath)
  · rename_i hne
    have hchars : (rooted names ++ "/" ++ path).toList =
        '/' :: ((join names).toList ++ '/' :: path.toList) := by
      rw [String.toList_append, String.toList_append, toList_rooted, List.append_assoc]
      rfl
    have hjoin : (join names).toList ≠ [] := by
      intro hnil
      obtain ⟨first, more, rfl⟩ := List.exists_cons_of_ne_nil hne
      obtain ⟨c, cs, hchars, -⟩ := (h first List.mem_cons_self).exists_cons
      obtain ⟨rest, hrest⟩ :=
        Text.exists_joinWith_eq_append ['/'] first.toList (more.map String.toList)
      rw [toList_join, List.map_cons, hrest, hchars] at hnil
      cases hnil
    refine root_eq_slash hchars ?_
    rw [List.head?_append_of_ne_nil _ hjoin]
    exact head?_join_ne h

/-- The segments of a path without steps up lead to what they spell. -/
theorem foldl_step_segments_of_straight (h : ∀ s ∈ names, IsProper s)
    (hstraight : IsStraight path) :
    (segments (append (rooted names) path)).foldl (step true) [] =
      (spelled names path).reverse := by
  unfold spelled start
  cases hpath : isAbsolute path with
  | true =>
    have happend : append (rooted names) path = path := if_pos hpath
    rw [happend, foldl_step_of_straight hstraight, List.append_nil, if_pos rfl, List.nil_append]
    rfl
  | false =>
    rw [foldl_step_segments_append h hpath, foldl_step_of_straight hstraight, if_neg (by decide),
      List.reverse_append]
    rfl

/-- The normal form of a relative path without steps up. -/
theorem absolute_of_relative (h : ∀ s ∈ names, IsProper s) (hpath : isAbsolute path = false)
    (hstraight : IsStraight path) :
    absolute (rooted names) path = rooted (spelled names path) := by
  have hseen : absolute (rooted names) path = normalize (append (rooted names) path) := by
    unfold absolute
    rw [hpath]
    rfl
  have hsteps := foldl_step_segments_of_straight h hstraight
  rw [hseen]
  unfold normalize
  rw [root_append_of_relative (fun s hs => (h s hs).1) hpath]
  simp only [ne_eq, String.reduceEq, not_false_eq_true, decide_true, hsteps, decide_false,
    Bool.false_and, Bool.false_eq_true, if_false, List.reverse_reverse]
  rfl

/-- A proper name is one segment. -/
theorem plainSegments_of_isProper (h : IsProper name) : plainSegments name = [name] := by
  have hjoin : join [name] = name := String.intercalate_singleton
  have hplain := plainSegments_join (List.cons_ne_nil name []) (List.forall_mem_singleton.mpr h)
  rwa [hjoin] at hplain

/-- A proper name takes no step up. -/
theorem isStraight_of_isProper (h : IsProper name) : IsStraight name := by
  have hjoin : join [name] = name := String.intercalate_singleton
  have hsegments := segments_join (List.cons_ne_nil name [])
    (List.forall_mem_singleton.mpr h.1.2)
  unfold IsStraight
  rw [← hjoin, hsegments]
  exact fun hmem => h.2.2 (List.mem_singleton.mp hmem).symm

/-- The path of a directory for copies: a relative one without steps up, or one in normal form. -/
structure IsShelf (path : String) : Prop where
  straight : IsStraight path
  normal : isAbsolute path = true → path = rooted (plainSegments path)

/-- A copy is in the directory for copies, under its name. -/
theorem spelled_append_name (hname : IsProper name) (path : String) (at_ : Location) :
    spelled at_ (append path name) = spelled at_ path ++ [name] := by
  rw [spelled_append hname.1.isAbsolute_eq, plainSegments_of_isProper hname]

/-- A path with a name at its end is not empty. -/
theorem append_name_ne_empty (hname : IsProper name) (path : String) : append path name ≠ "" := by
  intro hempty
  have hplain := @plainSegments_append path name hname.1.isAbsolute_eq
  have hnone : plainSegments "" = [] := by decide
  rw [hempty, hnone, plainSegments_of_isProper hname] at hplain
  exact List.append_ne_nil_of_right_ne_nil _ (List.cons_ne_nil _ _) hplain.symm

/-- A proper name at its end leaves a path without steps up. -/
theorem IsStraight.append_name (h : IsStraight path) (hname : IsProper name) :
    IsStraight (append path name) :=
  isStraight_append hname.1.isAbsolute_eq h (isStraight_of_isProper hname)

end PathText

namespace World.Anchored

variable {w : World} {path copies name : String}

open PathText

/-- The real path of a path without steps up is the path of what it spells. -/
theorem realPath_eq (hw : w.Anchored) (h : IsStraight path) :
    w.realPath path = rooted (spelled w.directory path) := by
  have hsteps := foldl_step_segments_of_straight hw.names h
  rw [← hw.path] at hsteps
  unfold realPath
  simp only [hsteps, List.reverse_reverse]
  rfl

section Copy

variable (hw : w.Anchored) (hcopies : IsShelf copies) (hname : IsProper name)

include hw hcopies

/-- The location of the directory for copies consists of proper names. -/
theorem isProper_shelf : ∀ s ∈ spelled w.directory copies, IsProper s :=
  isProper_of_mem_spelled hw.names hcopies.straight

include hname

/-- The location of a copy is made of proper names. -/
theorem isProper_copy : ∀ s ∈ spelled w.directory copies ++ [name], IsProper s := by
  intro s hs
  rcases List.mem_append.mp hs with hs | hs
  · exact hw.isProper_shelf hcopies s hs
  · exact (List.mem_singleton.mp hs) ▸ hname

/-- The path that is scanned. -/
theorem realPath_copy :
    w.realPath (append copies name) = rooted (spelled w.directory copies ++ [name]) := by
  rw [hw.realPath_eq (hcopies.straight.append_name hname), spelled_append_name hname]

/-- The path of the directory that is made for a copy. -/
theorem parent_copy :
    parent (absolute w.workingDirectory (append copies name)) =
      rooted (spelled w.directory copies) := by
  have habsolute : absolute w.workingDirectory (append copies name) =
      rooted (spelled w.directory copies ++ [name]) := by
    have hstart : isAbsolute (append copies name) = isAbsolute copies :=
      isAbsolute_append hname.1.isAbsolute_eq
    cases hpath : isAbsolute copies with
    | false =>
      rw [hpath] at hstart
      rw [← spelled_append_name hname, hw.path]
      exact absolute_of_relative hw.names hstart (hcopies.straight.append_name hname)
    | true =>
      have hshelf : spelled w.directory copies = plainSegments copies := by
        unfold spelled start
        rw [if_pos hpath, List.nil_append]
      have hproper := isProper_copy hw hcopies hname
      rw [hshelf] at hproper ⊢
      rw [hcopies.normal hpath, plainSegments_rooted fun s hs =>
        hproper s (List.mem_append_left _ hs)]
      rw [append_rooted_name (fun s hs => (hproper s (List.mem_append_left _ hs)).1) hname.1]
      exact absolute_rooted_of_isProper hproper _
  rw [habsolute]
  exact parent_rooted_concat (fun s hs => (hw.isProper_shelf hcopies s hs).1) hname.1

end Copy

end World.Anchored

end DesignTokens
