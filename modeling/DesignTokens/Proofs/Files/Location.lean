import DesignTokens.Proofs.Files.PathText
import DesignTokens.Proofs.Files.Tree
import Mathlib.Data.List.Induction

/-!
# Locations of a tree

A tree of files lists each location once, by names that a path can spell, and everything in it is
in a directory. In such a tree a way without detours leads to the location that it spells, and any
way leads to the location that is left when its detours are taken out: there are no links that
could lead elsewhere.
-/

namespace DesignTokens

instance (s : String) : Decidable (PathText.IsSegment s) := inferInstanceAs (Decidable (_ ∧ _))

instance (s : String) : Decidable (PathText.IsProper s) := inferInstanceAs (Decidable (_ ∧ _))

/-- A text that can be the name of a file or a directory. -/
def IsName (name : String) : Prop :=
  PathText.IsProper name ∧ name.utf8ByteSize ≤ nameLimit ∧ ∀ c ∈ name.toList, c.toNat ≠ 0

/-- Character by character, and not over all characters. -/
instance decidableNulNotMem (name : String) : Decidable (∀ c ∈ name.toList, c.toNat ≠ 0) :=
  List.decidableBAll _ name.toList

instance (name : String) : Decidable (IsName name) := inferInstanceAs (Decidable (_ ∧ _ ∧ _))

namespace FileTree

/-- What the nodes of every tree of files fulfil. -/
structure WellFormed (t : FileTree) : Prop where
  /-- Each location is listed once. -/
  once : (t.nodes.map Prod.fst).Nodup
  /-- The root is not listed, and locations consist of names. -/
  named : ∀ n ∈ t.nodes, n.1 ≠ [] ∧ ∀ name ∈ n.1, IsName name
  /-- Everything is in a directory. -/
  housed : ∀ n ∈ t.nodes, t.hasDirectory n.1.dropLast = true

variable {t : FileTree} {at_ location : Location} {way : List String} {name : String} {node : Node}

/-- The root is a directory. -/
theorem hasDirectory_root (t : FileTree) : t.hasDirectory [] = true := rfl

/-- A directory is at a location if its node is one. -/
theorem hasDirectory_iff : t.hasDirectory at_ = true ↔ t.node? at_ = some .directory := by
  unfold hasDirectory
  rw [beq_iff_eq]

/-- A directory is something. -/
theorem isSome_of_hasDirectory (h : t.hasDirectory at_ = true) : (t.node? at_).isSome = true := by
  rw [hasDirectory_iff.mp h]
  rfl

/-- A file is at a location if its node is one. -/
theorem hasFile_iff : t.hasFile at_ = true ↔ ∃ content, t.node? at_ = some (.file content) := by
  unfold hasFile
  cases t.node? at_ with
  | none => simp
  | some node => cases node <;> simp

/-- A file is something. -/
theorem isSome_of_hasFile (h : t.hasFile at_ = true) : (t.node? at_).isSome = true := by
  obtain ⟨content, hnode⟩ := hasFile_iff.mp h
  rw [hnode]
  rfl

/-- No location has both a file and a directory. -/
theorem hasDirectory_eq_false_of_hasFile (h : t.hasFile at_ = true) :
    t.hasDirectory at_ = false := by
  obtain ⟨content, hnode⟩ := hasFile_iff.mp h
  unfold hasDirectory
  rw [hnode]
  rfl

namespace WellFormed

/-- What is at a location other than the root is what is listed there. -/
theorem node?_eq_some_iff (ht : t.WellFormed) (hne : at_ ≠ []) :
    t.node? at_ = some node ↔ (at_, node) ∈ t.nodes := by
  unfold node?
  rw [if_neg hne, List.lookup_eq_some_iff]
  constructor
  · rintro ⟨before, after, hnodes, -⟩
    rw [hnodes]
    exact List.mem_append_right before List.mem_cons_self
  · intro hmem
    obtain ⟨before, after, hnodes⟩ := List.append_of_mem hmem
    refine ⟨before, after, hnodes, fun p hp => ?_⟩
    have honce := ht.once
    rw [hnodes, List.map_append, List.nodup_append] at honce
    have hapart :=
      honce.2.2 p.1 (List.mem_map_of_mem hp) at_ (List.mem_map_of_mem List.mem_cons_self)
    exact bne_iff_ne.mpr fun heq => hapart heq.symm

/-- A location of a well-formed tree is made of names. -/
theorem isName_of_isSome (ht : t.WellFormed) (h : (t.node? at_).isSome = true) :
    ∀ name ∈ at_, IsName name := by
  by_cases hne : at_ = []
  · subst hne
    exact fun name hname => absurd hname List.not_mem_nil
  · obtain ⟨node, hnode⟩ := Option.isSome_iff_exists.mp h
    exact (ht.named _ ((ht.node?_eq_some_iff hne).mp hnode)).2

/-- A location of a well-formed tree is made of proper names. -/
theorem isProper_of_isSome (ht : t.WellFormed) (h : (t.node? at_).isSome = true) :
    ∀ name ∈ at_, PathText.IsProper name :=
  fun name hname => (ht.isName_of_isSome h name hname).1

/-- Above what is in a well-formed tree there is a directory. -/
theorem hasDirectory_dropLast (ht : t.WellFormed) (h : (t.node? at_).isSome = true) :
    t.hasDirectory at_.dropLast = true := by
  by_cases hne : at_ = []
  · subst hne
    exact t.hasDirectory_root
  · obtain ⟨node, hnode⟩ := Option.isSome_iff_exists.mp h
    exact ht.housed _ ((ht.node?_eq_some_iff hne).mp hnode)

/-- The beginnings of the way to something are directories. -/
theorem hasDirectory_of_append (ht : t.WellFormed) (h : (t.node? (at_ ++ way)).isSome = true)
    (hne : way ≠ []) : t.hasDirectory at_ = true := by
  induction way using List.reverseRecOn with
  | nil => exact absurd rfl hne
  | append_singleton way last ih =>
    have habove := ht.hasDirectory_dropLast h
    rw [← List.append_assoc, List.dropLast_concat] at habove
    by_cases hway : way = []
    · subst hway
      rwa [List.append_nil] at habove
    · exact ih (isSome_of_hasDirectory habove) hway

/-- The way to something leads through what is there. -/
theorem isSome_of_append (ht : t.WellFormed) (h : (t.node? (at_ ++ way)).isSome = true) :
    (t.node? at_).isSome = true := by
  by_cases hway : way = []
  · subst hway
    rwa [List.append_nil] at h
  · exact isSome_of_hasDirectory (ht.hasDirectory_of_append h hway)

/-- The names in a directory are those of what is there. -/
theorem mem_children_iff (ht : t.WellFormed) :
    name ∈ t.children at_ ↔ (t.node? (at_ ++ [name])).isSome = true := by
  have hne : at_ ++ [name] ≠ [] := List.append_ne_nil_of_right_ne_nil at_ (List.cons_ne_nil name [])
  unfold children
  rw [List.mem_filterMap, Option.isSome_iff_exists]
  constructor
  · rintro ⟨⟨there, node⟩, hmem, hlast⟩
    split at hlast
    · rename_i habove
      refine ⟨node, (ht.node?_eq_some_iff hne).mpr ?_⟩
      rw [← habove, List.dropLast_append_getLast? name hlast]
      exact hmem
    · cases hlast
  · rintro ⟨node, hnode⟩
    refine ⟨_, (ht.node?_eq_some_iff hne).mp hnode, ?_⟩
    rw [if_pos List.dropLast_concat, List.getLast?_concat]

/-- The ways below a directory are those to directories. -/
theorem mem_directoriesBelow_iff (ht : t.WellFormed) (hat : t.hasDirectory at_ = true) :
    way ∈ t.directoriesBelow at_ ↔ t.hasDirectory (at_ ++ way) = true := by
  unfold directoriesBelow
  rw [List.mem_cons, List.mem_filterMap]
  constructor
  · rintro (rfl | ⟨⟨there, node⟩, hmem, hdrop⟩)
    · rwa [List.append_nil]
    · split at hdrop
      · rename_i hbelow
        obtain ⟨rfl, hprefix, -⟩ := hbelow
        obtain ⟨rest, rfl⟩ := List.isPrefixOf_iff_prefix.mp hprefix
        obtain rfl := (List.drop_left.symm.trans (Option.some.inj hdrop)).symm
        exact hasDirectory_iff.mpr ((ht.node?_eq_some_iff (ht.named _ hmem).1).mpr hmem)
      · cases hdrop
  · intro hdirectory
    by_cases hway : way = []
    · exact .inl hway
    · refine .inr ⟨(at_ ++ way, .directory), ?_, ?_⟩
      · exact (ht.node?_eq_some_iff (List.append_ne_nil_of_right_ne_nil at_ hway)).mp
          (hasDirectory_iff.mp hdirectory)
      · have happly : Node.directory = Node.directory ∧ at_.isPrefixOf (at_ ++ way) = true ∧
            at_ ≠ at_ ++ way :=
          ⟨rfl, List.isPrefixOf_iff_prefix.mpr (List.prefix_append at_ way),
            fun heq => hway (List.append_right_eq_self.mp heq.symm)⟩
        rw [if_pos happly, List.drop_left]

end WellFormed

/-- A segment leads down unless it is empty, a dot or two dots. -/
theorem isNavigation_eq_false_iff {segment : String} :
    isNavigation segment = false ↔ segment ≠ "" ∧ segment ≠ "." ∧ segment ≠ ".." := by
  simp [isNavigation, and_assoc]

namespace WellFormed

/-- Where a name leads from a directory. -/
theorem walk_singleton_name (ht : t.WellFormed) (hat : t.hasDirectory at_ = true)
    (hnode : (t.node? (at_ ++ [name])).isSome = true) :
    t.walk at_ [name] = .ok (at_ ++ [name]) := by
  obtain ⟨hproper, hshort, -⟩ := ht.isName_of_isSome hnode name (by simp)
  rw [walk_singleton_eq_ok_iff]
  exact ⟨hat, .inr (.inr
    ⟨isNavigation_eq_false_iff.mpr ⟨hproper.1.1, hproper.2⟩, hshort, hnode, rfl⟩)⟩

/-- A way without detours leads to what it spells. -/
theorem walk_names (ht : t.WellFormed) (h : (t.node? (at_ ++ way)).isSome = true) :
    t.walk at_ way = .ok (at_ ++ way) := by
  induction way generalizing at_ with
  | nil =>
    rw [List.append_nil]
    rfl
  | cons name way ih =>
    have hat := ht.hasDirectory_of_append h (List.cons_ne_nil name way)
    rw [List.append_cons] at h ⊢
    rw [walk_cons, ht.walk_singleton_name hat (ht.isSome_of_append h)]
    exact ih h

/-- A way leads to what is left of it without its detours. -/
theorem reverse_of_walk {segments : List String} (ht : t.WellFormed)
    (hat : ∀ name ∈ at_, PathText.IsProper name) (h : t.walk at_ segments = .ok location) :
    location.reverse = segments.foldl (PathText.step true) at_.reverse := by
  -- Each step of the walk is one step of the normal form, on the reversed names passed so far.
  induction segments generalizing at_ with
  | nil =>
    obtain rfl := Except.ok.inj h
    rfl
  | cons segment segments ih =>
    rw [walk_cons] at h
    cases hnext : t.walk at_ [segment] with
    | error fault =>
      rw [hnext] at h
      cases h
    | ok next =>
      rw [hnext] at h
      have hstep : next.reverse = PathText.step true at_.reverse segment ∧
          ∀ name ∈ next, PathText.IsProper name := by
        obtain ⟨-, ⟨hsame, rfl⟩ | ⟨rfl, rfl⟩ | ⟨hname, -, hnode, rfl⟩⟩ :=
          walk_singleton_eq_ok_iff.mp hnext
        · refine ⟨?_, hat⟩
          rcases hsame with rfl | rfl <;> rfl
        · refine ⟨?_, fun name hname => hat name ((List.dropLast_prefix at_).mem hname)⟩
          rcases List.eq_nil_or_concat at_ with rfl | ⟨before, last, rfl⟩
          · rfl
          · have hlast : last ≠ ".." := (hat last (by simp)).2.2
            rw [List.concat_eq_append, List.dropLast_concat, List.reverse_concat]
            simp [PathText.step, hlast]
        · obtain ⟨hempty, hplace, habove⟩ := isNavigation_eq_false_iff.mp hname
          refine ⟨?_, ht.isProper_of_isSome hnode⟩
          rw [List.reverse_concat]
          simp [PathText.step, hempty, hplace, habove]
      rw [ih hstep.2 h, hstep.1, List.foldl_cons]

end WellFormed

/-- A path that is followed is not too long. -/
theorem utf8ByteSize_le_of_locate {directory target : Location} {path : String}
    (h : t.locate directory path = .ok target) : path.utf8ByteSize ≤ pathLimit := by
  unfold locate at h
  split at h
  · cases h
  split at h
  · cases h
  · rename_i hshort
    exact Nat.not_lt.mp hshort

/-- The path from the root with these segments is followed from the root. -/
theorem locate_rooted {names : List String} (h : ∀ s ∈ names, PathText.IsSegment s)
    (hshort : (PathText.rooted names).utf8ByteSize ≤ pathLimit) (directory : Location) :
    t.locate directory (PathText.rooted names) = t.walk [] names := by
  unfold locate
  rw [if_neg (PathText.rooted_ne_empty names), if_neg (Nat.not_lt.mpr hshort),
    PathText.isAbsolute_rooted, if_pos rfl]
  by_cases hne : names = []
  · subst hne
    rw [PathText.segments_rooted_nil]
    rfl
  · rw [PathText.segments_rooted hne fun s hs => (h s hs).2, walk_cons]
    rfl

end FileTree

end DesignTokens
