import DesignTokens.Proofs.Files.Location
import DesignTokens.Proofs.Files.Straight

/-!
# What is below a place

A path without steps up that leads along a place is followed in the same way in two trees that have
the same below the place and directories above it. What is made or written by such a path is put at
or below the place, so both trees still have the same there, and everything else stays.
-/

namespace DesignTokens.FileTree

variable {t t' : FileTree} {place at_ location directory : Location} {names : List String}
  {name path : String} {node : Node}

section Filter

variable {p : Location → Bool}

/-- What is kept is still found. -/
private theorem lookup_filter (hp : p location = true) (nodes : List (Location × Node)) :
    (nodes.filter fun n => p n.1).lookup location = nodes.lookup location := by
  induction nodes with
  | nil => rfl
  | cons n nodes ih =>
    obtain ⟨key, value⟩ := n
    by_cases hkey : location = key
    · subst hkey
      rw [List.filter_cons_of_pos (by simpa using hp), List.lookup_cons_self,
        List.lookup_cons_self]
    · have hbeq : (location == key) = false := by simpa using hkey
      by_cases hkept : p key = true
      · rw [List.filter_cons_of_pos (by simpa using hkept), List.lookup_cons, List.lookup_cons,
          hbeq, ih]
      · rw [List.filter_cons_of_neg (by simpa using hkept), List.lookup_cons, hbeq, ih]

/-- A location is looked up among the nodes of its kind. -/
theorem node?_eq_of_filter (hp : p location = true)
    (h : t.nodes.filter (fun n => p n.1) = t'.nodes.filter fun n => p n.1) :
    t.node? location = t'.node? location := by
  unfold node?
  split
  · rfl
  · rw [← lookup_filter hp, h, lookup_filter hp]

/-- What is kept is still there. -/
private theorem any_filter (hp : p location = true) (nodes : List (Location × Node)) :
    ((nodes.filter fun n => p n.1).any fun n => n.1 == location) =
      nodes.any fun n => n.1 == location := by
  rw [List.any_filter]
  refine congrArg nodes.any (funext fun n => ?_)
  by_cases hn : n.1 = location
  · rw [hn, hp, Bool.true_and]
  · rw [beq_eq_false_iff_ne.mpr hn, Bool.and_false]

/-- What is put at a location of a kind is put among the nodes of that kind. -/
theorem filter_put_of_pos (hp : p location = true) (t : FileTree) (node : Node) :
    (t.put location node).nodes.filter (fun n => p n.1) =
      (put ⟨t.nodes.filter fun n => p n.1⟩ location node).nodes := by
  unfold put
  dsimp only
  rw [any_filter hp]
  split
  · have hkept : ((fun n : Location × Node => p n.1) ∘
        fun n => if n.1 = location then (location, node) else n) = fun n => p n.1 := by
      funext n
      by_cases hn : n.1 = location <;> simp [hn]
    dsimp only
    rw [List.filter_map, hkept]
  · simp [hp]

/-- What is put at a location of another kind makes no difference. -/
theorem filter_put_of_neg (hp : p location = false) (t : FileTree) (node : Node) :
    (t.put location node).nodes.filter (fun n => p n.1) = t.nodes.filter fun n => p n.1 := by
  unfold put
  split
  · have hkept : ((fun n : Location × Node => p n.1) ∘
        fun n => if n.1 = location then (location, node) else n) = fun n => p n.1 := by
      funext n
      by_cases hn : n.1 = location <;> simp [hn]
    have hsame : ∀ n ∈ t.nodes.filter fun n => p n.1,
        (if n.1 = location then (location, node) else n) = id n := by
      intro n hn
      have hne : n.1 ≠ location := by
        intro heq
        have hkept := (List.mem_filter.mp hn).2
        rw [heq, hp] at hkept
        cases hkept
      rw [if_neg hne]
      rfl
    dsimp only
    rw [List.filter_map, hkept, List.map_congr_left hsame, List.map_id]
  · simp [hp]

end Filter

section Walk

/-- A way without steps up depends on what is on it. -/
theorem walk_congr (hup : ".." ∉ names)
    (h : ∀ l, at_ <+: l → l <+: at_ ++ names.filter (fun s => s ≠ "" && s ≠ ".") →
      t.node? l = t'.node? l) : t.walk at_ names = t'.walk at_ names := by
  induction names generalizing at_ with
  | nil => rfl
  | cons name names ih =>
    have hdirectory : t.hasDirectory at_ = t'.hasDirectory at_ := by
      unfold hasDirectory
      rw [h at_ List.prefix_rfl (List.prefix_append _ _)]
    obtain ⟨hname, hrest⟩ := not_or.mp (mt List.mem_cons.mpr hup)
    by_cases hplace : name = "" ∨ name = "."
    · have hskip : (name :: names).filter (fun s => s ≠ "" && s ≠ ".") =
          names.filter fun s => s ≠ "" && s ≠ "." := by
        rw [List.filter_cons_of_neg]
        rcases hplace with rfl | rfl <;> simp
      rw [hskip] at h
      have hstays : (name = "" || name = ".") = true := by simpa using hplace
      simp only [walk, hdirectory, if_pos hstays, ih hrest h]
    · obtain ⟨hempty, hdot⟩ := not_or.mp hplace
      have hkeep : (name :: names).filter (fun s => s ≠ "" && s ≠ ".") =
          name :: names.filter fun s => s ≠ "" && s ≠ "." :=
        List.filter_cons_of_pos (by simp [hempty, hdot])
      rw [hkeep] at h
      have hnode := h (at_ ++ [name]) (List.prefix_append _ _)
        ((List.prefix_append_right_inj at_).mpr ⟨_, rfl⟩)
      have hgoes : ¬ (name = "" || name = ".") = true := by simpa using hplace
      have hon : t.walk (at_ ++ [name]) names = t'.walk (at_ ++ [name]) names :=
        ih hrest fun l hl hle =>
          h l ((List.prefix_append _ _).trans hl) (by rwa [List.append_assoc] at hle)
      simp only [walk, hdirectory, if_neg hgoes, if_neg (Ne.symm hname), hnode, hon]

/-- A way without steps up leads to what it spells, through directories. -/
theorem walk_of_straight {target : Location} (hup : ".." ∉ names)
    (h : t.walk at_ names = .ok target) :
    target = at_ ++ names.filter (fun s => s ≠ "" && s ≠ ".") ∧
      ∀ above, at_ <+: above → above <+: target → above ≠ target →
        t.hasDirectory above = true := by
  induction names generalizing at_ with
  | nil =>
    obtain rfl := Except.ok.inj h
    refine ⟨(List.append_nil at_).symm, fun above hat hle hne => ?_⟩
    exact absurd (hle.eq_of_length_le hat.length_le) hne
  | cons name names ih =>
    obtain ⟨hname, hrest⟩ := not_or.mp (mt List.mem_cons.mpr hup)
    rw [walk_cons] at h
    cases hstep : t.walk at_ [name] with
    | error fault =>
      rw [hstep] at h
      cases h
    | ok next =>
      rw [hstep] at h
      obtain ⟨htarget, habove⟩ := ih hrest h
      obtain ⟨hdirectory, ⟨hplace, rfl⟩ | ⟨heq, -⟩ | ⟨hplain, -, -, rfl⟩⟩ :=
        walk_singleton_eq_ok_iff.mp hstep
      · refine ⟨?_, habove⟩
        rw [htarget, List.filter_cons_of_neg]
        rcases hplace with rfl | rfl <;> simp
      · exact absurd heq.symm hname
      · obtain ⟨hempty, hdot, -⟩ := isNavigation_eq_false_iff.mp hplain
        constructor
        · rw [htarget, List.filter_cons_of_pos (by simp [hempty, hdot]), List.append_assoc]
          rfl
        · intro above hat hle hne
          obtain ⟨more, rfl⟩ := hat
          cases more with
          | nil => rwa [List.append_nil]
          | cons first more =>
            -- The way goes on through `name`, so this is where the location goes on as well.
            have hfirst : first = name := by
              rw [htarget, List.append_assoc, List.prefix_append_right_inj] at hle
              exact (List.cons_prefix_cons.mp hle).1
            subst hfirst
            refine habove _ ?_ hle hne
            exact (List.prefix_append_right_inj at_).mpr ⟨more, rfl⟩

/-- A path without steps up leads to what it spells. -/
theorem eq_spelled_of_locate {target : Location}
    (hstraight : PathText.IsStraight path) (hlocate : t.locate directory path = .ok target) :
    target = PathText.spelled directory path := by
  unfold locate at hlocate
  split at hlocate
  · cases hlocate
  split at hlocate
  · cases hlocate
  exact (walk_of_straight hstraight hlocate).1

/-- An entry with a name of its own is what the path spells. -/
theorem spelled_of_entry (hstraight : PathText.IsStraight path)
    (hentry : t.entry directory path = .ok (at_, name))
    (hname : isNavigation name = false) :
    PathText.spelled directory path = at_ ++ [name] := by
  obtain ⟨-, -, hwalk, hlast, -, -⟩ := walk_of_entry hentry
  obtain ⟨before, hbefore⟩ := List.getLast?_eq_some_iff.mp hlast
  obtain ⟨hempty, hdot, -⟩ := isNavigation_eq_false_iff.mp hname
  rw [hbefore, List.dropLast_concat] at hwalk
  have hup : ".." ∉ before := by
    intro hmem
    apply hstraight
    rw [hbefore]
    exact List.mem_append_left _ hmem
  rw [(walk_of_straight hup hwalk).1, List.append_assoc]
  unfold PathText.spelled PathText.start PathText.plainSegments
  rw [hbefore, List.filter_append, List.filter_cons_of_pos (by simp [hempty, hdot])]
  rfl

/-- The path by which a directory is made, without the slashes at its end, spells the same. -/
theorem exists_trimmed (hstraight : PathText.IsStraight path) (directory : Location) :
    ∃ trimmed, (if PathText.dropTrailingSlashes path = "" then path
      else PathText.dropTrailingSlashes path) = trimmed ∧ PathText.IsStraight trimmed ∧
        PathText.spelled directory trimmed = PathText.spelled directory path := by
  split
  · exact ⟨path, rfl, hstraight, rfl⟩
  · rename_i hne
    exact ⟨_, rfl, hstraight.dropTrailingSlashes,
      PathText.spelled_dropTrailingSlashes directory hne⟩

/-- A directory is made where its path says. -/
theorem eq_put_of_makeDirectory (hstraight : PathText.IsStraight path)
    (h : t.makeDirectory directory path = .ok t') :
    t' = t.put (PathText.spelled directory path) .directory := by
  unfold makeDirectory at h
  dsimp only at h
  obtain ⟨trimmed, hpath, hstraight', hspelled⟩ := exists_trimmed hstraight directory
  rw [hpath] at h
  cases hentry : t.entry directory trimmed with
  | error fault =>
    rw [hentry] at h
    cases h
  | ok entry =>
    obtain ⟨at_, name⟩ := entry
    rw [hentry] at h
    dsimp only at h
    split at h
    · cases h
    · rename_i hfree
      have hname := (Bool.or_eq_false_iff.mp (Bool.eq_false_iff.mpr hfree)).1
      rw [← hspelled, spelled_of_entry hstraight' hentry hname]
      exact (Except.ok.inj h).symm

end Walk

section Below

/-- What is at a place and below it. -/
def below (t : FileTree) (place : Location) : List (Location × Node) :=
  t.nodes.filter fun n => place.isPrefixOf n.1

/-- What is neither at a place nor below it. -/
def outside (t : FileTree) (place : Location) : List (Location × Node) :=
  t.nodes.filter fun n => !place.isPrefixOf n.1

/-- The way to a place leads through directories. -/
def Opens (t : FileTree) (place : Location) : Prop :=
  ∀ above, above <+: place → above ≠ place → t.hasDirectory above = true

/-- Two trees with the same at a place and below it, by proper names, and with directories above
it. -/
structure SameBelow (place : Location) (t t' : FileTree) : Prop where
  opens : t.Opens place
  opens' : t'.Opens place
  below_eq : t.below place = t'.below place
  proper : ∀ n ∈ t.below place, ∀ name ∈ n.1, PathText.IsProper name

/-- A location on the way to a place, at it or below it. -/
def Along (place location : Location) : Prop := location <+: place ∨ place <+: location

/-- What is above a location along a place is along it too. -/
theorem Along.of_le {above : Location} (h : Along place location) (hle : above <+: location) :
    Along place above := by
  rcases h with h | h
  · exact .inl (hle.trans h)
  · exact List.prefix_or_prefix_of_prefix hle h

/-- What is outside stays when something is put at or below the place. -/
theorem outside_put (h : place <+: location) (t : FileTree) (node : Node) :
    (t.put location node).outside place = t.outside place :=
  filter_put_of_neg (p := fun l => !place.isPrefixOf l)
    (by simpa using List.isPrefixOf_iff_prefix.mpr h) t node

/-- The directories above a place are outside. -/
theorem Opens.of_outside (h : t.Opens place) (houtside : t'.outside place = t.outside place) :
    t'.Opens place := by
  intro above hle hne
  have hout : (!place.isPrefixOf above) = true := by
    rw [Bool.not_eq_true', Bool.eq_false_iff]
    intro hbelow
    exact hne (hle.eq_of_length_le (List.isPrefixOf_iff_prefix.mp hbelow).length_le)
  have hnode := node?_eq_of_filter (p := fun l => !place.isPrefixOf l) hout houtside
  have hdirectory := h above hle hne
  unfold hasDirectory at hdirectory ⊢
  rwa [hnode]

/-- A place that is written to where no directory is, is not on the way to another place. -/
theorem Opens.prefix_of_along (h : t.Opens place) (halong : Along place location)
    (hfree : t.hasDirectory location = false) : place <+: location := by
  rcases halong with habove | hbelow
  · by_cases heq : location = place
    · exact heq ▸ List.prefix_rfl
    · rw [h location habove heq] at hfree
      cases hfree
  · exact hbelow

end Below

namespace SameBelow

/-- A tree is like itself below a place that can be opened. -/
theorem refl (hopens : t.Opens place)
    (hproper : ∀ n ∈ t.below place, ∀ name ∈ n.1, PathText.IsProper name) : SameBelow place t t :=
  ⟨hopens, hopens, rfl, hproper⟩

/-- Along the place the same is found in both trees. -/
theorem node?_eq (h : SameBelow place t t') (halong : Along place location) :
    t.node? location = t'.node? location := by
  by_cases hbelow : place <+: location
  · exact node?_eq_of_filter (p := place.isPrefixOf) (List.isPrefixOf_iff_prefix.mpr hbelow)
      h.below_eq
  · have habove := halong.resolve_right hbelow
    have hne : location ≠ place := fun heq => hbelow (heq ▸ List.prefix_rfl)
    rw [hasDirectory_iff.mp (h.opens location habove hne),
      hasDirectory_iff.mp (h.opens' location habove hne)]

/-- Along the place both trees have the same directories. -/
theorem hasDirectory_eq (h : SameBelow place t t') (halong : Along place location) :
    t.hasDirectory location = t'.hasDirectory location := by
  unfold hasDirectory
  rw [h.node?_eq halong]

/-- What is put at or below the place in both trees. -/
theorem put (h : SameBelow place t t') (hle : place <+: location)
    (hproper : ∀ name ∈ location, PathText.IsProper name) (node : Node) :
    SameBelow place (t.put location node) (t'.put location node) := by
  have hp : place.isPrefixOf location = true := List.isPrefixOf_iff_prefix.mpr hle
  refine ⟨h.opens.of_outside (outside_put hle t node),
    h.opens'.of_outside (outside_put hle t' node), ?_, ?_⟩
  · unfold below
    rw [filter_put_of_pos hp, filter_put_of_pos hp]
    exact congrArg (fun nodes => (FileTree.put ⟨nodes⟩ location node).nodes) h.below_eq
  · intro n hn
    unfold below at hn
    rw [filter_put_of_pos hp] at hn
    unfold FileTree.put at hn
    split at hn
    · obtain ⟨m, hm, rfl⟩ := List.mem_map.mp hn
      split
      · exact hproper
      · exact h.proper m hm
    · rcases List.mem_append.mp hn with hn | hn
      · exact h.proper n hn
      · obtain rfl := List.mem_singleton.mp hn
        exact hproper

section Paths

variable (h : SameBelow place t t') (hstraight : PathText.IsStraight path)
  (halong : Along place (PathText.spelled directory path))

include h hstraight halong

/-- A way along the place is walked alike in both trees. -/
private theorem walk_eq (hle : ∃ more, names ++ more = PathText.segments path) :
    t.walk (PathText.start directory path) names =
      t'.walk (PathText.start directory path) names := by
  obtain ⟨more, hmore⟩ := hle
  refine walk_congr (fun hmem => hstraight ?_) fun l _ hl => h.node?_eq (halong.of_le ?_)
  · rw [← hmore]
    exact List.mem_append_left more hmem
  · refine hl.trans ?_
    unfold PathText.spelled PathText.plainSegments
    rw [← hmore, List.filter_append, ← List.append_assoc]
    exact List.prefix_append _ _

/-- A path along the place leads to the same location in both trees. -/
theorem locate_eq : t.locate directory path = t'.locate directory path := by
  unfold locate
  split
  · rfl
  split
  · rfl
  exact h.walk_eq hstraight halong ⟨[], List.append_nil _⟩

/-- A path along the place leads to something in both trees or in neither. -/
theorem pathExists_eq : t.pathExists directory path = t'.pathExists directory path := by
  unfold pathExists
  rw [h.locate_eq hstraight halong]

/-- A path along the place leads to a directory in both trees or in neither. -/
theorem isDirectory_eq : t.isDirectory directory path = t'.isDirectory directory path := by
  unfold isDirectory
  rw [← h.locate_eq hstraight halong]
  cases hlocate : t.locate directory path with
  | error fault => rfl
  | ok target =>
    rw [← eq_spelled_of_locate hstraight hlocate] at halong
    exact h.hasDirectory_eq halong

/-- A path along the place is read alike in both trees. -/
theorem read_eq : t.read directory path = t'.read directory path := by
  unfold read
  rw [← h.locate_eq hstraight halong]
  cases hlocate : t.locate directory path with
  | error fault => rfl
  | ok target =>
    rw [← eq_spelled_of_locate hstraight hlocate] at halong
    simp only [h.node?_eq halong]

/-- A path along the place leads to the same entry in both trees. -/
theorem entry_eq : t.entry directory path = t'.entry directory path := by
  have hsegments : PathText.segments path ≠ [] := fun hnil =>
    Text.splitOn_ne_nil '/' path.toList (List.map_eq_nil_iff.mp hnil)
  have hcut : (PathText.segments path).dropLast ++ [(PathText.segments path).getLast hsegments] =
      PathText.segments path := List.dropLast_append_getLast hsegments
  have hwalk := h.walk_eq hstraight halong ⟨_, hcut⟩
  unfold PathText.start at hwalk
  unfold entry
  dsimp only
  rw [hwalk]
  split
  · rfl
  split
  · rfl
  cases hleads : t'.walk (if PathText.isAbsolute path then [] else directory)
      (PathText.segments path).dropLast with
  | error fault => rfl
  | ok target =>
    have hup : ".." ∉ (PathText.segments path).dropLast :=
      fun hmem => hstraight (List.dropLast_subset _ hmem)
    have htarget := (walk_of_straight hup hleads).1
    have hdirectory : t.hasDirectory target = t'.hasDirectory target := by
      refine h.hasDirectory_eq (halong.of_le ?_)
      rw [htarget]
      unfold PathText.spelled PathText.start PathText.plainSegments
      conv_rhs => rw [← hcut, List.filter_append, ← List.append_assoc]
      exact List.prefix_append _ _
    simp only [bind, Except.bind, hdirectory]

/-- A file is written at or below the place in both trees, or refused in both. -/
theorem write_cases (content : List UInt8) :
    (∃ e, t.write directory path content = .error e ∧ t'.write directory path content = .error e) ∨
      ∃ location, location = PathText.spelled directory path ∧ place <+: location ∧
        t.write directory path content = .ok (t.put location (.file content)) ∧
          t'.write directory path content = .ok (t'.put location (.file content)) := by
  unfold write
  rw [← h.entry_eq hstraight halong]
  cases hentry : t.entry directory path with
  | error fault => exact .inl ⟨_, rfl, rfl⟩
  | ok entry =>
    obtain ⟨at_, name⟩ := entry
    dsimp only
    cases hname : isNavigation name with
    | true => exact .inl ⟨_, rfl, rfl⟩
    | false =>
      have hspelled := spelled_of_entry hstraight hentry hname
      rw [hspelled] at halong
      rw [← h.hasDirectory_eq halong, Bool.false_or]
      cases hfree : t.hasDirectory (at_ ++ [name]) with
      | true => exact .inl ⟨_, rfl, rfl⟩
      | false =>
        exact .inr ⟨at_ ++ [name], hspelled.symm, h.opens.prefix_of_along halong hfree, rfl, rfl⟩

/-- A directory is made at or below the place in both trees, or refused in both. -/
theorem makeDirectory_cases :
    (∃ e, t.makeDirectory directory path = .error e ∧
        t'.makeDirectory directory path = .error e) ∨
      ∃ location, location = PathText.spelled directory path ∧ place <+: location ∧
        t.makeDirectory directory path = .ok (t.put location .directory) ∧
          t'.makeDirectory directory path = .ok (t'.put location .directory) := by
  unfold makeDirectory
  dsimp only
  obtain ⟨trimmed, hpath, hstraight', hspelled'⟩ := exists_trimmed hstraight directory
  rw [hpath]
  rw [← hspelled'] at halong ⊢
  rw [← h.entry_eq hstraight' halong]
  cases hentry : t.entry directory trimmed with
  | error fault => exact .inl ⟨_, rfl, rfl⟩
  | ok entry =>
    obtain ⟨at_, name⟩ := entry
    dsimp only
    cases hname : isNavigation name with
    | true => exact .inl ⟨_, rfl, rfl⟩
    | false =>
      have hspelled := spelled_of_entry hstraight' hentry hname
      rw [hspelled] at halong
      rw [← h.node?_eq halong, Bool.false_or]
      cases hnode : t.node? (at_ ++ [name]) with
      | some node => exact .inl ⟨_, rfl, rfl⟩
      | none =>
        have hfree : t.hasDirectory (at_ ++ [name]) = false := by
          unfold hasDirectory
          rw [hnode]
          rfl

        exact .inr ⟨at_ ++ [name], hspelled.symm, h.opens.prefix_of_along halong hfree, rfl, rfl⟩

end Paths

end SameBelow

end DesignTokens.FileTree
