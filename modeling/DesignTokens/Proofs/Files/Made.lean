import DesignTokens.Proofs.Files.Below
import DesignTokens.Proofs.Files.Possible
import DesignTokens.Proofs.Run

/-!
# Directories that are made

After a directory has been made by the path of its location it is there, with directories above it,
and making it again changes nothing.
-/

namespace DesignTokens

namespace PathText

variable {names : List String} {name : String}

/-- The path of a location has no slashes at its end, but for that of the root. -/
theorem dropTrailingSlashes_rooted (h : ∀ s ∈ names, IsSegment s) (hne : names ≠ []) :
    dropTrailingSlashes (rooted names) = rooted names := by
  have hkept : (rooted names).toList.reverse.dropWhile (· = '/') =
      (rooted names).toList.reverse := by
    cases hchars : (rooted names).toList.reverse with
    | nil => rfl
    | cons c more =>
      refine List.dropWhile_cons_of_neg ?_
      intro hc
      obtain rfl := of_decide_eq_true hc
      refine getLast?_rooted_ne h hne ?_
      rw [← List.head?_reverse, hchars]
      rfl
  unfold dropTrailingSlashes
  rw [hkept, List.reverse_reverse, String.ofList_toList]

theorem baseName_rooted_concat (h : ∀ s ∈ names ++ [name], IsSegment s) :
    baseName (rooted (names ++ [name])) = name := by
  have hne : names ++ [name] ≠ [] := List.append_ne_nil_of_right_ne_nil _ (List.cons_ne_nil _ _)
  unfold baseName
  rw [segments_rooted hne fun s hs => (h s hs).2, ← List.cons_append, List.getLast?_concat]
  rfl

theorem utf8ByteSize_rooted_le (h : ∀ s ∈ names, IsSegment s) (hname : IsSegment name) :
    (rooted names).utf8ByteSize ≤ (rooted (names ++ [name])).utf8ByteSize := by
  rw [← append_rooted_name h hname, append_rooted_of_relative h hname.isAbsolute_eq]
  split
  · rename_i hnil
    subst hnil
    rw [String.utf8ByteSize_append]
    exact Nat.le_add_right _ _
  · rw [String.utf8ByteSize_append, String.utf8ByteSize_append]
    omega

end PathText

namespace FileTree

variable {t t' : FileTree} {directory : Location} {path : String} {names : List String}

/-- A path that leads to a directory leads through directories. -/
theorem opens_of_isDirectory (hstraight : PathText.IsStraight path)
    (habsolute : PathText.isAbsolute path = true) (h : t.isDirectory directory path = true) :
    ∀ above, above <+: PathText.spelled directory path → t.hasDirectory above = true := by
  unfold isDirectory at h
  cases hlocate : t.locate directory path with
  | error fault =>
    rw [hlocate] at h
    cases h
  | ok target =>
    rw [hlocate] at h
    intro above hle
    by_cases heq : above = target
    · exact heq ▸ h
    rw [← eq_spelled_of_locate hstraight hlocate] at hle
    unfold locate at hlocate
    split at hlocate
    · cases hlocate
    split at hlocate
    · cases hlocate
    exact (walk_of_straight hstraight hlocate).2 above List.nil_prefix hle heq

/-- A directory that is made is there, if its path has no slashes at its end. -/
theorem isDirectory_of_makeDirectory (htrimmed : PathText.dropTrailingSlashes path = path)
    (h : t.makeDirectory directory path = .ok t') : t'.isDirectory directory path = true := by
  unfold makeDirectory at h
  simp only [htrimmed, ite_self] at h
  cases hentry : t.entry directory path with
  | error fault =>
    rw [hentry] at h
    cases h
  | ok entry =>
    obtain ⟨at_, name⟩ := entry
    rw [hentry] at h
    dsimp only at h
    split at h
    · cases h
    rename_i hrefused
    obtain rfl := Except.ok.inj h
    obtain ⟨hname, hfree⟩ := Bool.or_eq_false_iff.mp (Bool.eq_false_iff.mpr hrefused)
    obtain ⟨hempty, hlong, hwalk, hlast, hdirectory, hsize⟩ := walk_of_entry hentry
    have hne : at_ ++ [name] ≠ [] := List.append_ne_nil_of_right_ne_nil at_ (List.cons_ne_nil _ _)
    have hstays : ∀ l, t.hasDirectory l = true →
        (t.put (at_ ++ [name]) .directory).hasDirectory l = true := by
      intro l hl
      unfold hasDirectory at hl ⊢
      rw [node?_put hne]
      split
      · rfl
      · exact hl
    have hnode : (t.put (at_ ++ [name]) .directory).node? (at_ ++ [name]) = some .directory := by
      rw [node?_put hne, if_pos rfl]
    have hstep : (t.put (at_ ++ [name]) .directory).walk at_ [name] = .ok (at_ ++ [name]) := by
      rw [walk_singleton_eq_ok_iff, hnode]
      exact ⟨hstays at_ hdirectory, .inr (.inr ⟨hname, hsize, rfl, rfl⟩)⟩
    obtain ⟨before, hbefore⟩ := List.getLast?_eq_some_iff.mp hlast
    rw [hbefore, List.dropLast_concat] at hwalk
    have hopen := walk_mono hstays (fun l hl => isSome_node?_put hne hl) hwalk
    unfold isDirectory locate
    rw [if_neg hempty, if_neg (Nat.not_lt.mpr hlong), hbefore, walk_append hopen, hstep]
    exact hasDirectory_iff.mpr hnode

/-- A directory that is there is not made. -/
theorem exists_makeDirectory_eq_error (htrimmed : PathText.dropTrailingSlashes path = path)
    (h : t.isDirectory directory path = true) :
    ∃ e, t.makeDirectory directory path = .error e := by
  unfold makeDirectory
  simp only [htrimmed, ite_self]
  cases hentry : t.entry directory path with
  | error fault => exact ⟨_, rfl⟩
  | ok entry =>
    obtain ⟨at_, name⟩ := entry
    dsimp only
    rw [if_pos]
    · exact ⟨_, rfl⟩
    by_contra hrefused
    obtain ⟨hname, hfree⟩ := Bool.or_eq_false_iff.mp (Bool.eq_false_iff.mpr hrefused)
    obtain ⟨hempty, hlong, hwalk, hlast, hdirectory, hsize⟩ := walk_of_entry hentry
    obtain ⟨before, hbefore⟩ := List.getLast?_eq_some_iff.mp hlast
    rw [hbefore, List.dropLast_concat] at hwalk
    unfold isDirectory locate at h
    rw [if_neg hempty, if_neg (Nat.not_lt.mpr hlong), hbefore, walk_append hwalk] at h
    cases hstep : t.walk at_ [name] with
    | error fault =>
      rw [hstep] at h
      cases h
    | ok next =>
      obtain ⟨hempty', hdot, hup⟩ := isNavigation_eq_false_iff.mp hname
      obtain ⟨-, ⟨hplace, -⟩ | ⟨hplace, -⟩ | ⟨-, -, hthere, -⟩⟩ := walk_singleton_eq_ok_iff.mp hstep
      · exact hplace.elim hempty' hdot
      · exact hup hplace
      · rw [hthere] at hfree
        cases hfree

end FileTree

namespace Run

variable {w u : World} {names : List String} {path : String}

open PathText

/-- A directory that is made, or is there already, is there. -/
theorem isDirectory_of_makeDirectory (h : ∀ s ∈ names, IsSegment s)
    (hmade : outcome (makeDirectory (rooted names) true) w = (.ok (), u)) :
    IsPossible (rooted names) ∧ u.isDirectory (rooted names) = true := by
  obtain ⟨⟨⟩, w₁, hrequired, hdone⟩ := exists_of_outcome_bind hmade
  obtain ⟨hpossible, rfl⟩ := isPossible_of_requirePath hrequired
  refine ⟨hpossible, ?_⟩
  rw [outcome_bind_of_ok (outcome_get _)] at hdone
  cases hmake : w₁.files.makeDirectory w₁.directory (rooted names) with
  | ok files =>
    rw [hmake] at hdone
    obtain rfl : { w₁ with files := files } = u := congrArg Prod.snd hdone
    by_cases hne : names = []
    · subst hne
      rfl
    · exact FileTree.isDirectory_of_makeDirectory (dropTrailingSlashes_rooted h hne) hmake
  | error e =>
    rw [hmake] at hdone
    dsimp only at hdone
    split at hdone
    · rename_i hthere
      obtain rfl : w₁ = u := congrArg Prod.snd hdone
      simpa using hthere
    · cases hdone

/-- The last part of the path of a location: nothing for the root, else a name. -/
private theorem cut_rooted (h : ∀ s ∈ names, IsProper s) :
    names = [] ∧ (if baseName (rooted names) = "" then
        (parent (parent (rooted names)), baseName (parent (rooted names)))
      else (parent (rooted names), baseName (rooted names))) = ("/", "") ∨
      ∃ before name, names = before ++ [name] ∧ (if baseName (rooted names) = "" then
          (parent (parent (rooted names)), baseName (parent (rooted names)))
        else (parent (rooted names), baseName (rooted names))) = (rooted before, name) := by
  rcases List.eq_nil_or_concat names with rfl | ⟨before, name, rfl⟩
  · exact .inl ⟨rfl, by decide⟩
  · rw [List.concat_eq_append] at h ⊢
    have hsegments : ∀ s ∈ before ++ [name], IsSegment s := fun s hs => (h s hs).1
    have hname := hsegments name (List.mem_append_right _ List.mem_cons_self)
    refine .inr ⟨before, name, rfl, ?_⟩
    rw [baseName_rooted_concat hsegments, if_neg hname.1,
      parent_rooted_concat (fun s hs => hsegments s (List.mem_append_left _ hs)) hname]

/-- Where a directory has been made there is room for a level at least. -/
theorem exists_limit_eq_succ [Nesting.Room] {site : Nesting.Site} {path : String}
    (hmade : outcome (makeDirectories site path) w = (.ok (), u)) :
    ∃ levels, site.limit = levels + 1 := by
  refine Nat.exists_eq_succ_of_ne_zero fun hnone => ?_
  unfold makeDirectories at hmade
  rw [hnone] at hmade
  cases hmade

/-- After a directory has been made with those above it, it is there. -/
theorem isDirectory_of_makeDirectories [Nesting.Room] {site : Nesting.Site}
    (h : ∀ s ∈ names, IsProper s)
    (hmade : outcome (makeDirectories site (rooted names)) w = (.ok (), u)) :
    IsPossible (rooted names) ∧ u.isDirectory (rooted names) = true := by
  have hsegments : ∀ s ∈ names, IsSegment s := fun s hs => (h s hs).1
  have hlast : ∃ w₁, outcome (makeDirectory (rooted names) true) w₁ = (.ok (), u) := by
    obtain ⟨levels, hlevels⟩ := exists_limit_eq_succ hmade
    unfold makeDirectories at hmade
    rw [hlevels] at hmade
    unfold makeDirectoriesFrom at hmade
    rw [outcome_bind_of_ok (outcome_get w)] at hmade
    dsimp only at hmade
    rcases cut_rooted h with ⟨-, hcut⟩ | ⟨before, name, hnames, hcut⟩
    · rw [hcut] at hmade
      exact ⟨w, hmade⟩
    · rw [hcut] at hmade
      have hdot : name ≠ "." :=
        (h name (hnames ▸ List.mem_append_right _ List.mem_cons_self)).2.1
      split at hmade
      · obtain ⟨⟨⟩, w₁, -, hlast⟩ := exists_of_outcome_bind hmade
        exact ⟨w₁, hlast⟩
      · exact ⟨w, hmade⟩
  obtain ⟨w₁, hlast⟩ := hlast
  exact isDirectory_of_makeDirectory hsegments hlast

/-- A directory that is there is not made again, nor are those above it. -/
theorem outcome_makeDirectories_of_isDirectory [Nesting.Room] {site : Nesting.Site} {levels : Nat}
    (hroom : site.limit = levels + 1) (h : ∀ s ∈ names, IsProper s)
    (hpossible : IsPossible (rooted names)) (hthere : w.isDirectory (rooted names) = true) :
    outcome (makeDirectories site (rooted names)) w = (.ok (), w) := by
  have hsegments : ∀ s ∈ names, IsSegment s := fun s hs => (h s hs).1
  have hkept : outcome (makeDirectory (rooted names) true) w = (.ok (), w) := by
    have herror : ∃ e, w.files.makeDirectory w.directory (rooted names) = .error e := by
      by_cases hne : names = []
      · subst hne
        exact ⟨⟨.alreadyThere, "/"⟩, rfl⟩
      · exact FileTree.exists_makeDirectory_eq_error (dropTrailingSlashes_rooted hsegments hne)
          hthere
    obtain ⟨e, herror⟩ := herror
    unfold makeDirectory
    rw [outcome_bind_of_ok (outcome_requirePath hpossible w), outcome_bind_of_ok (outcome_get w),
      herror, hthere]
    rfl
  unfold makeDirectories
  rw [hroom]
  unfold makeDirectoriesFrom
  rw [outcome_bind_of_ok (outcome_get w)]
  dsimp only
  rcases cut_rooted h with ⟨-, hcut⟩ | ⟨before, name, rfl, hcut⟩
  · rw [hcut]
    exact hkept
  · have habove : w.pathExists (rooted before) = true := by
      have hbefore : ∀ s ∈ before, IsSegment s :=
        fun s hs => hsegments s (List.mem_append_left _ hs)
      have hname := hsegments name (List.mem_append_right _ List.mem_cons_self)
      have hshort : (rooted (before ++ [name])).utf8ByteSize ≤ pathLimit := by
        by_contra hlong
        unfold World.isDirectory FileTree.isDirectory FileTree.locate at hthere
        rw [if_neg (rooted_ne_empty _), if_pos (Nat.lt_of_not_le hlong)] at hthere
        cases hthere
      unfold World.isDirectory FileTree.isDirectory at hthere
      rw [FileTree.locate_rooted hsegments hshort, FileTree.walk_append_eq_bind] at hthere
      unfold World.pathExists FileTree.pathExists
      rw [FileTree.locate_rooted hbefore ((utf8ByteSize_rooted_le hbefore hname).trans hshort)]
      cases hwalk : w.files.walk [] before with
      | error fault =>
        rw [hwalk] at hthere
        cases hthere
      | ok target => rfl
    rw [hcut]
    dsimp only
    rw [habove, Bool.not_true, Bool.and_false, if_neg Bool.false_ne_true]
    exact hkept

end Run

end DesignTokens
