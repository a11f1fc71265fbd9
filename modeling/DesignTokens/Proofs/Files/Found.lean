import DesignTokens.Proofs.Files.Glob
import DesignTokens.Proofs.Lists

/-!
# What patterns for paths find

A pattern is read below a root as segments, unless it leads elsewhere or its text is refused, and
can be matched unless something has to be looked at by a path that is too long. What it finds are
the files that its segments lead to, hidden ones only on demand, and each of them is read by the
path of its way.
-/

namespace DesignTokens.Glob

variable {t : FileTree} {s : Segment} {at_ location : Location} {way : List String}
  {root pattern relative : String} {parsed : List Segment}

section Reading

/-- A relative pattern is read as it is. -/
theorem relativePattern_of_relative (hne : pattern ≠ "") (h : PathText.isAbsolute pattern = false)
    (root : String) : relativePattern root pattern = .ok pattern := by
  unfold relativePattern
  rw [if_neg hne, h]
  rfl

/-- How a pattern is read below a root: as a relative pattern and its segments. -/
structure Reads [Nesting.Room] (root pattern relative : String) (parsed : List Segment) : Prop where
  below : relativePattern root pattern = .ok relative
  cut : Glob.segments relative = .ok (.ok parsed)

/-- A pattern that can be matched: it can be read, and all that is looked at for it can be looked
at by its path. -/
structure Usable [Nesting.Room] (t : FileTree) (root : String) (at_ : Location)
    (pattern relative : String)
    (parsed : List Segment) : Prop extends Reads root pattern relative parsed where
  visible : ∀ way ∈ [] :: looks t parsed ⟨[], at_⟩, isRefused root way = false

/-- A pattern within the limits: if it leads below the root, it has segments, no more of them than
are read. -/
def IsModest [Nesting.Room] (root pattern : String) : Prop :=
  ∀ relative, relativePattern root pattern = .ok relative →
    PathText.plainSegments relative ≠ [] ∧
      (PathText.plainSegments relative).length ≤ Nesting.Site.search.limit

/-- A pattern without steps up, if it leads below the root. -/
def IsStraight (root pattern : String) : Prop :=
  ∀ relative, relativePattern root pattern = .ok relative → ".." ∉ PathText.plainSegments relative

/-- The files that a pattern finds, by the segments that lead to them and their locations: hidden
ones only if a segment of the pattern is hidden. -/
def Finds [Nesting.Room] (t : FileTree) (root : String) (at_ : Location) (pattern : String)
    (way : List String)
    (location : Location) : Prop :=
  ∃ relative parsed, Usable t root at_ pattern relative parsed ∧
    Leads t parsed at_ way location ∧ t.hasFile location = true ∧
      ((PathText.segments relative).any isHidden = true ∨ way.any isHidden = false)

/-- A segment of a pattern that is not cut away has a plain meaning. -/
private theorem plain_of_segment? {name : String} (hempty : name ≠ "") (hplace : name ≠ ".")
    (h : segment? name = some s) : s ≠ .fixed "" ∧ s ≠ .fixed "." := by
  unfold segment? at h
  split at h
  · obtain rfl := Option.some.inj h
    exact ⟨Segment.noConfusion, Segment.noConfusion⟩
  split at h
  · cases h
  split at h
  · obtain rfl := Option.some.inj h
    exact ⟨Segment.noConfusion, Segment.noConfusion⟩
  · obtain rfl := Option.some.inj h
    exact ⟨fun heq => hempty (Segment.fixed.inj heq), fun heq => hplace (Segment.fixed.inj heq)⟩

/-- The end of a pattern for directories. -/
def ending (pattern : String) : List Segment :=
  if pattern.toList.getLast? = some '/' then [.directoryOnly] else []

/-- A pattern is read segment by segment, if it has segments and not too many. -/
theorem segments_eq_ok_iff [Nesting.Room] :
    Glob.segments relative = .ok (.ok parsed) ↔
      PathText.plainSegments relative ≠ [] ∧
        (PathText.plainSegments relative).length ≤ Nesting.Site.search.limit ∧
        ∃ named, (PathText.plainSegments relative).mapM segment? = some named ∧
          parsed = named ++ ending relative := by
  unfold Glob.segments ending
  cases hnames : PathText.plainSegments relative with
  | nil =>
    simp only
    split <;> simp
  | cons first more =>
    simp only
    by_cases hmany : Nesting.Site.search.limit < (first :: more).length
    · have hlimit := Nat.not_le.mpr hmany
      simp only [hmany, if_true, hlimit, false_and, and_false, iff_false]
      cases ((first :: more).take Nesting.Site.search.limit).mapM segment? <;> simp
    · have hlimit := Nat.not_lt.mp hmany
      simp only [List.take_of_length_le hlimit, hmany, if_false, hlimit, true_and]
      cases (first :: more).mapM segment? with
      | none => simp
      | some named =>
        by_cases hslash : relative.toList.getLast? = some '/' <;>
          simp [hslash, @eq_comm _ parsed]

theorem ne_of_mem_plainSegments {path name : String} (h : name ∈ PathText.plainSegments path) :
    name ≠ "" ∧ name ≠ "." := by
  have hkept := (List.mem_filter.mp h).2
  simpa using hkept

variable [Nesting.Room]

namespace Reads

/-- The segments of a pattern mean what its text says, but for its ending. -/
theorem exists_name (h : Reads root pattern relative parsed) (hs : s ∈ parsed) :
    s = .directoryOnly ∨ ∃ name ∈ PathText.plainSegments relative, segment? name = some s := by
  obtain ⟨-, -, named, hnamed, rfl⟩ := segments_eq_ok_iff.mp h.cut
  rcases List.mem_append.mp hs with hs | hending
  · right
    obtain ⟨name, hname, hmeaning⟩ := exists_of_mem_forall₂ (mapM_eq_some_iff.mp hnamed) hs
    exact ⟨name, hname, hmeaning⟩
  · left
    unfold ending at hending
    split at hending
    · exact List.mem_singleton.mp hending
    · cases hending

theorem plain (h : Reads root pattern relative parsed) : Plain parsed := by
  intro s hs
  rcases h.exists_name hs with rfl | ⟨name, hname, hmeaning⟩
  · exact ⟨Segment.noConfusion, Segment.noConfusion⟩
  · obtain ⟨hempty, hplace⟩ := ne_of_mem_plainSegments hname
    exact plain_of_segment? hempty hplace hmeaning

/-- A step up is spelled as such. -/
theorem up_notMem (h : Reads root pattern relative parsed)
    (hup : ".." ∉ PathText.plainSegments relative) : .fixed ".." ∉ parsed := by
  intro hmem
  rcases h.exists_name hmem with hend | ⟨name, hname, hmeaning⟩
  · cases hend
  · unfold segment? at hmeaning
    split at hmeaning
    · cases hmeaning
    split at hmeaning
    · cases hmeaning
    split at hmeaning
    · cases hmeaning
    · obtain rfl := Segment.fixed.inj (Option.some.inj hmeaning)
      exact hup hname

end Reads

/-- A usable pattern is answered with the ways to what the search finds. -/
theorem files_of_usable (h : Usable t root at_ pattern relative parsed) :
    files t root at_ pattern = .ok (.ok
      (((select t parsed ⟨[], at_⟩).filter fun hit => t.hasFile hit.location &&
        ((PathText.segments relative).any isHidden || !hit.way.any isHidden)).map (·.way))) := by
  have hvisible : ([] :: looks t parsed ⟨[], at_⟩).find? (isRefused root) = none :=
    List.find?_eq_none.mpr fun way hway => by simp [h.visible way hway]
  unfold files
  simp only [h.below, h.cut, bind, Except.bind, hvisible]

/-- Only a usable pattern is answered with files. -/
theorem exists_usable {ways : List (List String)} (h : files t root at_ pattern = .ok (.ok ways)) :
    ∃ relative parsed, Usable t root at_ pattern relative parsed := by
  unfold files at h
  split at h
  · cases h
  rename_i relative hbelow
  cases hcut : Glob.segments relative with
  | error e =>
    rw [hcut] at h
    cases h
  | ok answer =>
    rw [hcut] at h
    cases answer with
    | error fault => cases h
    | ok parsed =>
      simp only [bind, Except.bind] at h
      split at h
      · cases h
      · rename_i hvisible
        refine ⟨relative, parsed, ⟨hbelow, hcut⟩, fun way hway => ?_⟩
        exact Bool.eq_false_iff.mpr (List.find?_eq_none.mp hvisible way hway)

/-- A usable pattern is answered with the ways to the files that it finds. -/
theorem mem_files_iff (ht : t.WellFormed) (hdirectory : t.hasDirectory at_ = true)
    {ways : List (List String)} (h : files t root at_ pattern = .ok (.ok ways)) :
    way ∈ ways ↔ ∃ location, Finds t root at_ pattern way location := by
  obtain ⟨relative, parsed, husable⟩ := exists_usable h
  rw [files_of_usable husable] at h
  obtain rfl := Except.ok.inj (Except.ok.inj h)
  have hselect : ∀ hit : Hit, hit ∈ select t parsed ⟨[], at_⟩ ↔
      Leads t parsed at_ hit.way hit.location := by
    intro hit
    rw [mem_select_iff ht husable.plain fun _ => hdirectory]
    simp
  have hshown : ∀ way : List String, ((PathText.segments relative).any isHidden ||
      !way.any isHidden) = true ↔
        (PathText.segments relative).any isHidden = true ∨ way.any isHidden = false := by
    intro way
    rw [Bool.or_eq_true, Bool.not_eq_true']
  simp only [List.mem_map, List.mem_filter, hselect, Bool.and_eq_true, hshown]
  constructor
  · rintro ⟨hit, ⟨hleads, hfile, hhidden⟩, rfl⟩
    exact ⟨hit.location, relative, parsed, husable, hleads, hfile, hhidden⟩
  · rintro ⟨location, relative', parsed', husable', hleads, hfile, hhidden⟩
    obtain rfl := Except.ok.inj (husable'.below.symm.trans husable.below)
    obtain rfl := Except.ok.inj (Except.ok.inj (husable'.cut.symm.trans husable.cut))
    exact ⟨⟨way, location⟩, ⟨hleads, hfile, hhidden⟩, rfl⟩

/-- A pattern within the limits is answered, with files or with a fault. -/
theorem exists_files_eq_ok (t : FileTree) (at_ : Location) (h : IsModest root pattern) :
    ∃ answer, files t root at_ pattern = .ok answer := by
  unfold files
  cases hbelow : relativePattern root pattern with
  | error fault => exact ⟨_, rfl⟩
  | ok relative =>
    obtain ⟨hne, hlimit⟩ := h relative hbelow
    have hcut : ∃ answer, Glob.segments relative = .ok answer := by
      unfold Glob.segments
      cases hnames : PathText.plainSegments relative with
      | nil => exact absurd hnames hne
      | cons first more =>
        rw [hnames] at hlimit
        simp only [Nat.not_lt.mpr hlimit, if_false]
        cases ((first :: more).take Nesting.Site.search.limit).mapM segment? with
        | none => exact ⟨_, rfl⟩
        | some named => exact ⟨_, rfl⟩
    obtain ⟨answer, hanswer⟩ := hcut
    simp only [hanswer, bind, Except.bind]
    cases answer with
    | error fault => exact ⟨_, rfl⟩
    | ok parsed =>
      simp only
      split
      · exact ⟨_, rfl⟩
      · exact ⟨_, rfl⟩

end Reading

section Located

/-- What is found has been looked at. -/
theorem mem_looks_of_mem_select {h n : Hit} (hn : n ∈ select t parsed h) :
    n.way ∈ looks t parsed h := by
  induction parsed generalizing h with
  | nil =>
    obtain rfl := List.mem_singleton.mp hn
    exact List.mem_singleton_self _
  | cons s rest ih =>
    rw [select, List.mem_flatMap] at hn
    obtain ⟨m, hm, hn⟩ := hn
    unfold looks
    exact List.mem_append_right _ (List.mem_flatMap.mpr ⟨m, hm, ih hn⟩)

theorem fullPath_rooted (hat : ∀ name ∈ at_, PathText.IsSegment name)
    (hway : ∀ name ∈ way, PathText.IsSegment name) :
    fullPath (PathText.rooted at_) way = PathText.rooted (at_ ++ way) := by
  unfold fullPath
  split
  · rename_i hnil
    rw [hnil, List.append_nil]
  · rename_i hne
    exact PathText.append_rooted hat hne hway

/-- A path of names is not too long to be followed, if it is not refused. -/
theorem utf8ByteSize_le_of_isRefused {names : List String}
    (hnul : ∀ name ∈ at_ ++ names, ∀ c ∈ name.toList, c.toNat ≠ 0)
    (hat : ∀ name ∈ at_, PathText.IsSegment name)
    (hway : ∀ name ∈ names, PathText.IsSegment name)
    (h : isRefused (PathText.rooted at_) names = false) :
    (PathText.rooted (at_ ++ names)).utf8ByteSize ≤ pathLimit := by
  have hclean : (PathText.rooted (at_ ++ names)).toList.any (·.toNat == 0) = false := by
    rw [List.any_eq_false]
    intro c hc
    rw [PathText.toList_rooted, PathText.toList_join] at hc
    rcases List.mem_cons.mp hc with rfl | hc
    · decide
    rcases Text.mem_joinWith hc with hslash | ⟨part, hpart, hc⟩
    · obtain rfl := List.mem_singleton.mp hslash
      decide
    · obtain ⟨name, hname, rfl⟩ := List.mem_map.mp hpart
      simpa using hnul name hname c hc
  unfold isRefused at h
  rw [fullPath_rooted hat hway] at h
  simp only [hclean, Bool.not_false, Bool.true_and, Bool.or_eq_false_iff, decide_eq_false_iff_not]
    at h
  exact Nat.not_lt.mp h.1

variable [Nesting.Room]

namespace Finds

/-- What a pattern finds below the path of a directory has the path of its way. -/
theorem fullPath_eq (ht : t.WellFormed) (hdirectory : t.hasDirectory at_ = true)
    (h : Finds t root at_ pattern way location) :
    fullPath (PathText.rooted at_) way = PathText.rooted (at_ ++ way) := by
  obtain ⟨relative, parsed, -, hleads, -, -⟩ := h
  have hnames := ht.isProper_of_isSome (FileTree.isSome_of_hasDirectory hdirectory)
  exact fullPath_rooted (fun name hname => (hnames name hname).1) (hleads.isSegment ht)

/-- The segments of the path of what a pattern finds. -/
theorem isSegment (ht : t.WellFormed) (hdirectory : t.hasDirectory at_ = true)
    (h : Finds t root at_ pattern way location) :
    ∀ name ∈ at_ ++ way, PathText.IsSegment name := by
  obtain ⟨relative, parsed, -, hleads, -, -⟩ := h
  intro name hname
  rcases List.mem_append.mp hname with hname | hname
  · exact (ht.isProper_of_isSome (FileTree.isSome_of_hasDirectory hdirectory) name hname).1
  · exact hleads.isSegment ht name hname

/-- Different ways have different paths. -/
theorem eq_of_fullPath_eq {other : String} {way' : List String} {location' : Location}
    (ht : t.WellFormed) (hdirectory : t.hasDirectory at_ = true)
    (h : Finds t root at_ pattern way location) (h' : Finds t root at_ other way' location')
    (heq : fullPath (PathText.rooted at_) way = fullPath (PathText.rooted at_) way') :
    way = way' := by
  rw [h.fullPath_eq ht hdirectory, h'.fullPath_eq ht hdirectory] at heq
  have hsame :=
    PathText.rooted_injective (h.isSegment ht hdirectory) (h'.isSegment ht hdirectory) heq
  exact List.append_cancel_left hsame

/-- What a pattern finds is where its way leads. -/
theorem walk_eq (ht : t.WellFormed) (hdirectory : t.hasDirectory at_ = true)
    (h : Finds t root at_ pattern way location) : t.walk [] (at_ ++ way) = .ok location := by
  obtain ⟨relative, parsed, -, hleads, -, -⟩ := h
  have hthere := FileTree.isSome_of_hasDirectory hdirectory
  have hroot : t.walk [] at_ = .ok at_ :=
    ht.walk_names (show (t.node? ([] ++ at_)).isSome = true from hthere)
  rw [FileTree.walk_append hroot]
  exact hleads.walk_eq ht

/-- What a pattern finds can be looked at by its path. -/
theorem isRefused_eq_false (ht : t.WellFormed) (hdirectory : t.hasDirectory at_ = true)
    (h : Finds t root at_ pattern way location) : isRefused root way = false := by
  obtain ⟨relative, parsed, husable, hleads, -, -⟩ := h
  have hselect : (⟨way, location⟩ : Hit) ∈ select t parsed ⟨[], at_⟩ :=
    (mem_select_iff ht husable.plain fun _ => hdirectory).mpr ⟨way, rfl, hleads⟩
  exact husable.visible way (List.mem_cons_of_mem _ (mem_looks_of_mem_select hselect))

/-- What a pattern finds is read by its path. -/
theorem locate_eq (ht : t.WellFormed) (hdirectory : t.hasDirectory at_ = true)
    (h : Finds t (PathText.rooted at_) at_ pattern way location) (directory : Location) :
    t.locate directory (fullPath (PathText.rooted at_) way) = .ok location := by
  have hsegments := h.isSegment ht hdirectory
  have hwalk := h.walk_eq ht hdirectory
  have hvisible := h.isRefused_eq_false ht hdirectory
  rw [h.fullPath_eq ht hdirectory]
  obtain ⟨relative, parsed, husable, hleads, -, -⟩ := h
  have hthere := FileTree.isSome_of_hasDirectory hdirectory
  have hnul : ∀ name ∈ at_ ++ way, ∀ c ∈ name.toList, c.toNat ≠ 0 := by
    intro name hname
    rcases List.mem_append.mp hname with hname | hname
    · exact (ht.isName_of_isSome hthere name hname).2.2
    · exact hleads.nul_notMem ht name hname
  have hshort := utf8ByteSize_le_of_isRefused hnul
    (fun name hname => hsegments name (List.mem_append_left way hname))
    (fun name hname => hsegments name (List.mem_append_right at_ hname)) hvisible
  rw [FileTree.locate_rooted hsegments hshort]
  exact hwalk

/-- The normal form of the path of what a pattern finds is the path of where it is. -/
theorem absolute_eq (ht : t.WellFormed) (hdirectory : t.hasDirectory at_ = true)
    (h : Finds t root at_ pattern way location) (workingDirectory : String) :
    PathText.absolute workingDirectory (fullPath (PathText.rooted at_) way) =
      PathText.rooted location := by
  have hreverse := ht.reverse_of_walk (fun name hname => absurd hname List.not_mem_nil)
    (h.walk_eq ht hdirectory)
  rw [h.fullPath_eq ht hdirectory, PathText.absolute_rooted (h.isSegment ht hdirectory),
    ← List.reverse_nil, ← hreverse, List.reverse_reverse]

/-- What a pattern without steps up finds is where the names of its way say. -/
theorem eq_append (hstraight : IsStraight root pattern)
    (h : Finds t root at_ pattern way location) : location = at_ ++ way := by
  obtain ⟨relative, parsed, husable, hleads, -, -⟩ := h
  exact hleads.eq_append (husable.up_notMem (hstraight relative husable.below))

end Finds

end Located

end DesignTokens.Glob
