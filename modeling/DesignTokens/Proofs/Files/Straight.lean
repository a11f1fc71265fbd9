import DesignTokens.Proofs.Files.Root

/-!
# Paths without steps up

A path without steps up names the location that its segments spell from where it starts, once those
for the same directory are left out. So do the paths that are made of it: what is appended to it
goes on from there, and the directory above it is on the way there.
-/

namespace DesignTokens.PathText

variable {path directory sub : String} {names done : List String}

/-- A path without steps up. -/
def IsStraight (path : String) : Prop := ".." ∉ segments path

instance (path : String) : Decidable (IsStraight path) := inferInstanceAs (Decidable (¬ _))

/-- Where a path starts, seen from a directory. -/
def start (directory : Location) (path : String) : Location :=
  if isAbsolute path then [] else directory

/-- The location that a path without steps up spells, seen from a directory. -/
def spelled (directory : Location) (path : String) : Location :=
  start directory path ++ plainSegments path

/-- Without steps up, all names are kept. -/
theorem foldl_step_of_straight (h : ".." ∉ names) (rooted : Bool) (done : List String) :
    names.foldl (step rooted) done = (names.filter fun s => s ≠ "" && s ≠ ".").reverse ++ done := by
  induction names generalizing done with
  | nil => rfl
  | cons name names ih =>
    have hname : name ≠ ".." := fun heq => h (heq ▸ List.mem_cons_self)
    rw [List.foldl_cons, ih fun hmem => h (List.mem_cons_of_mem name hmem)]
    by_cases hplace : name = "" ∨ name = "."
    · have hfilter : (name :: names).filter (fun s => s ≠ "" && s ≠ ".") =
          names.filter fun s => s ≠ "" && s ≠ "." := by
        rw [List.filter_cons_of_neg]
        rcases hplace with rfl | rfl <;> simp
      have hstep : step rooted done name = done := by
        unfold step
        rcases hplace with rfl | rfl <;> rfl
      rw [hfilter, hstep]
    · obtain ⟨hempty, hdot⟩ := not_or.mp hplace
      have hstep : step rooted done name = name :: done := by
        unfold step
        simp [hempty, hdot, hname]
      rw [hstep, List.filter_cons_of_pos (by simp [hempty, hdot]), List.reverse_cons,
        List.append_assoc]
      rfl

section Append

/-- A relative path appended to a directory: its segments come after those of the directory, but
for an empty one. -/
theorem exists_segments_append (hsub : isAbsolute sub = false) :
    ∃ before, segments (append directory sub) = before ++ segments sub ∧
      (∀ s ∈ before, s ∈ segments directory) ∧
        before.filter (fun s => s ≠ "" && s ≠ ".") = plainSegments directory := by
  unfold append
  rw [if_neg (by simp [hsub])]
  by_cases hempty : directory = ""
  · subst hempty
    exact ⟨[], by simp, by simp, by decide⟩
  by_cases hslash : directory.toList.getLast? = some '/'
  · obtain ⟨before, hbefore⟩ := List.getLast?_eq_some_iff.mp hslash
    have hcut : directory = String.ofList before ++ "/" := by
      rw [← String.toList_inj, hbefore, String.toList_append, String.toList_ofList]
      rfl
    have hdirectory : segments directory = segments (String.ofList before) ++ [""] := by
      have h := segments_append_slash (String.ofList before) ""
      rwa [String.append_empty, ← hcut] at h
    refine ⟨segments (String.ofList before), ?_, ?_, ?_⟩
    · rw [if_pos (by simp [hslash]), hcut, segments_append_slash]
    · intro s hs
      rw [hdirectory]
      exact List.mem_append_left _ hs
    · unfold plainSegments
      rw [hdirectory, List.filter_append]
      exact (List.append_nil _).symm
  · refine ⟨segments directory, ?_, fun s hs => hs, rfl⟩
    rw [if_neg (by simp [hempty, hslash]), segments_append_slash]

theorem plainSegments_append (hsub : isAbsolute sub = false) :
    plainSegments (append directory sub) = plainSegments directory ++ plainSegments sub := by
  obtain ⟨before, hsegments, -, hplain⟩ := @exists_segments_append directory sub hsub
  rw [plainSegments, hsegments, List.filter_append, hplain]
  rfl

theorem isStraight_append (hsub : isAbsolute sub = false) (h : IsStraight directory)
    (hstraight : IsStraight sub) : IsStraight (append directory sub) := by
  obtain ⟨before, hsegments, hbefore, -⟩ := @exists_segments_append directory sub hsub
  unfold IsStraight
  rw [hsegments, List.mem_append, not_or]
  exact ⟨fun hmem => h (hbefore _ hmem), hstraight⟩

theorem isAbsolute_append (hsub : isAbsolute sub = false) :
    isAbsolute (append directory sub) = isAbsolute directory := by
  unfold append
  rw [if_neg (by simp [hsub])]
  by_cases hempty : directory = ""
  · subst hempty
    rw [if_pos (by simp), String.empty_append, hsub]
    rfl
  · have hchars : directory.toList ≠ [] := fun hnil => hempty (String.toList_eq_nil_iff.mp hnil)
    have hhead : ∀ rest, isAbsolute (directory ++ rest) = isAbsolute directory := by
      intro rest
      unfold isAbsolute
      rw [String.toList_append, List.head?_append_of_ne_nil _ hchars]
    split
    · exact hhead sub
    · rw [String.append_assoc]
      exact hhead _

/-- What is appended goes on from where the directory is. -/
theorem spelled_append (hsub : isAbsolute sub = false) (at_ : Location) :
    spelled at_ (append directory sub) = spelled at_ directory ++ plainSegments sub := by
  unfold spelled start
  rw [isAbsolute_append hsub, plainSegments_append hsub, List.append_assoc]

end Append

section Parent

/-- A text of slashes has no names. -/
private theorem segment_eq_empty (h : ∀ c ∈ path.toList, c = '/') :
    ∀ s ∈ segments path, s = "" := by
  intro s hs
  obtain ⟨field, hfield, rfl⟩ := List.mem_map.mp hs
  cases field with
  | nil => rfl
  | cons c field =>
    have hc := h c (Text.mem_of_mem_splitOn hfield List.mem_cons_self)
    exact absurd (hc ▸ List.mem_cons_self) (Text.notMem_of_mem_splitOn hfield)

/-- The directory above a path: the text before some slash, or one without names. -/
theorem parent_cases (path : String) :
    (∃ rest, path = parent path ++ "/" ++ rest) ∨
      (∀ s ∈ segments (parent path), s = "") ∧
        (parent path = "" ∨ isAbsolute (parent path) = isAbsolute path) := by
  rcases exists_cut path with hnone | ⟨kept, slashes, last, hpath, hkept, hslashes, hne, hlast⟩
  · rw [parent_eq_empty hnone]
    exact .inr ⟨by decide, .inl rfl⟩
  · have hparent := parent_of_cut hpath hkept hslashes hne hlast
    obtain ⟨slash, more, rfl⟩ := List.exists_cons_of_ne_nil hne
    obtain rfl := hslashes slash List.mem_cons_self
    by_cases hnil : kept = []
    · right
      rw [if_pos hnil] at hparent
      rw [hparent]
      refine ⟨segment_eq_empty fun c hc => ?_, .inr ?_⟩
      · rw [String.toList_ofList] at hc
        exact hslashes c hc
      · unfold isAbsolute
        rw [hpath, hnil, String.toList_ofList]
        rfl
    · left
      rw [if_neg hnil] at hparent
      refine ⟨String.ofList (more ++ last), ?_⟩
      rw [hparent, ← String.toList_inj, hpath]
      simp
/-- The directory above a path without steps up has none either. -/
theorem IsStraight.parent (h : IsStraight path) : IsStraight (PathText.parent path) := by
  rcases parent_cases path with ⟨rest, hpath⟩ | ⟨hempty, -⟩
  · intro hmem
    apply h
    rw [hpath, segments_append_slash]
    exact List.mem_append_left _ hmem
  · exact fun hmem => absurd (hempty _ hmem) (by decide)

/-- The directory above a path is on the way to it. -/
theorem spelled_parent_le (at_ : Location) (hne : PathText.parent path ≠ "") :
    spelled at_ (PathText.parent path) <+: spelled at_ path := by
  have hcases := parent_cases path
  generalize PathText.parent path = above at hne hcases
  unfold spelled start
  rcases hcases with ⟨rest, rfl⟩ | ⟨hempty, habsolute⟩
  · have hstart : isAbsolute (above ++ "/" ++ rest) = isAbsolute above := by
      have hchars : above.toList ≠ [] := fun hnil => hne (String.toList_eq_nil_iff.mp hnil)
      unfold isAbsolute
      rw [String.append_assoc, String.toList_append, List.head?_append_of_ne_nil _ hchars]
    rw [hstart, plainSegments, plainSegments, segments_append_slash, List.filter_append,
      ← List.append_assoc]
    exact List.prefix_append _ _
  · have hplain : plainSegments above = [] :=
      List.filter_eq_nil_iff.mpr fun s hs => by simp [hempty s hs]
    rw [habsolute.resolve_left hne, hplain, List.append_nil]
    exact List.prefix_append _ _

/-- There is text before a slash, if only the slash itself. -/
theorem parent_ne_empty (h : '/' ∈ path.toList) : PathText.parent path ≠ "" := by
  have hslash : path.toList.reverse.dropWhile (· ≠ '/') ≠ [] := by
    intro hnil
    have hall := List.dropWhile_eq_nil_iff.mp hnil '/' (List.mem_reverse.mpr h)
    simp at hall
  unfold PathText.parent
  dsimp only
  generalize path.toList.reverse.dropWhile (· ≠ '/') = chars at hslash
  split
  · exact fun heq => hslash (List.reverse_eq_nil_iff.mp (String.ofList_eq_empty_iff.mp heq))
  · rename_i hkept
    exact fun heq => hkept (List.reverse_eq_nil_iff.mp (String.ofList_eq_empty_iff.mp heq))

/-- There is a slash between a directory and what is appended to it. -/
theorem slash_mem_append (hsub : isAbsolute sub = false) (hne : directory ≠ "") :
    '/' ∈ (append directory sub).toList := by
  unfold append
  rw [if_neg (by simp [hsub])]
  split
  · rename_i hopen
    have hlast : directory.toList.getLast? = some '/' := by simpa [hne] using hopen
    rw [String.toList_append]
    exact List.mem_append_left _ (List.mem_of_getLast? hlast)
  · rw [String.toList_append, String.toList_append]
    exact List.mem_append_left _ (List.mem_append_right _ (by decide))

/-- A path without the slashes at its end spells the same. -/
theorem dropTrailingSlashes_cases (path : String) :
    ∃ slashes, path = dropTrailingSlashes path ++ slashes ∧ ∀ c ∈ slashes.toList, c = '/' := by
  have hcut := List.takeWhile_append_dropWhile (p := fun c => decide (c = '/'))
    (l := path.toList.reverse)
  refine ⟨String.ofList (path.toList.reverse.takeWhile (· = '/')).reverse, ?_, ?_⟩
  · unfold dropTrailingSlashes
    rw [← String.ofList_append, ← List.reverse_append, hcut, List.reverse_reverse,
      String.ofList_toList]
  · intro c hc
    rw [String.toList_ofList, List.mem_reverse] at hc
    simpa using List.mem_takeWhile_imp hc

/-- What is left without the slashes at the end: the segments of the path, but for empty ones. -/
theorem exists_segments_dropTrailingSlashes (path : String) :
    ∃ more, segments path = segments (dropTrailingSlashes path) ++ more ∧ ∀ s ∈ more, s = "" := by
  obtain ⟨slashes, hpath, hslashes⟩ := dropTrailingSlashes_cases path
  cases hchars : slashes.toList with
  | nil =>
    refine ⟨[], ?_, fun s hs => absurd hs List.not_mem_nil⟩
    rw [String.toList_eq_nil_iff] at hchars
    rw [hchars, String.append_empty] at hpath
    rw [← hpath, List.append_nil]
  | cons c chars =>
    rw [hchars] at hslashes
    have hcut : slashes = "/" ++ String.ofList chars := by
      rw [← String.toList_inj, hchars, String.toList_append, String.toList_ofList,
        String.toList_ofList, hslashes c List.mem_cons_self]
      rfl
    refine ⟨segments (String.ofList chars), ?_, segment_eq_empty fun d hd => ?_⟩
    · rw [← segments_append_slash, String.append_assoc, ← hcut, ← hpath]
    · rw [String.toList_ofList] at hd
      exact hslashes d (List.mem_cons_of_mem c hd)

theorem IsStraight.dropTrailingSlashes (h : IsStraight path) :
    IsStraight (PathText.dropTrailingSlashes path) := by
  obtain ⟨more, hsegments, -⟩ := exists_segments_dropTrailingSlashes path
  intro hmem
  apply h
  rw [hsegments]
  exact List.mem_append_left more hmem

/-- A path without the slashes at its end leads to the same location. -/
theorem spelled_dropTrailingSlashes (at_ : Location)
    (hne : PathText.dropTrailingSlashes path ≠ "") :
    spelled at_ (PathText.dropTrailingSlashes path) = spelled at_ path := by
  obtain ⟨slashes, hpath, -⟩ := dropTrailingSlashes_cases path
  obtain ⟨more, hsegments, hmore⟩ := exists_segments_dropTrailingSlashes path
  have habsolute : isAbsolute path = isAbsolute (PathText.dropTrailingSlashes path) := by
    unfold isAbsolute
    conv_lhs => rw [hpath, String.toList_append,
      List.head?_append_of_ne_nil _ fun hnil => hne (String.toList_eq_nil_iff.mp hnil)]
  have hplain : plainSegments path = plainSegments (PathText.dropTrailingSlashes path) := by
    have hnone : more.filter (fun s => s ≠ "" && s ≠ ".") = [] :=
      List.filter_eq_nil_iff.mpr fun s hs => by simp [hmore s hs]
    unfold plainSegments
    rw [hsegments, List.filter_append, hnone, List.append_nil]
  unfold spelled start
  rw [habsolute, hplain]

end Parent

section Names

/-- The location that a path without steps up spells consists of proper names. -/
theorem isProper_of_mem_spelled {at_ : Location} (hat : ∀ name ∈ at_, IsProper name)
    (h : IsStraight path) : ∀ name ∈ spelled at_ path, IsProper name := by
  intro name hname
  rcases List.mem_append.mp hname with hname | hname
  · unfold start at hname
    split at hname
    · cases hname
    · exact hat name hname
  · obtain ⟨hmem, hplace⟩ := List.mem_filter.mp hname
    simp only [decide_not, Bool.and_eq_true, Bool.not_eq_true', decide_eq_false_iff_not] at hplace
    exact ⟨⟨hplace.1, slash_notMem_of_mem_segments hmem⟩, hplace.2, fun heq => h (heq ▸ hmem)⟩

/-- The path of a location has no steps up. -/
theorem isStraight_rooted (h : ∀ name ∈ names, IsProper name) : IsStraight (rooted names) := by
  unfold IsStraight
  by_cases hne : names = []
  · subst hne
    decide
  · rw [segments_rooted hne fun s hs => (h s hs).1.2, List.mem_cons, not_or]
    exact ⟨by decide, fun hmem => (h _ hmem).2.2 rfl⟩

theorem spelled_rooted (h : ∀ name ∈ names, IsProper name) (at_ : Location) :
    spelled at_ (rooted names) = names := by
  unfold spelled start
  rw [if_pos (isAbsolute_rooted names), plainSegments_rooted h, List.nil_append]

end Names

end DesignTokens.PathText
