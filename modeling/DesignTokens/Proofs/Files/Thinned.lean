import DesignTokens.Proofs.Files.Below
import DesignTokens.Proofs.Files.Discovery

/-!
# Trees with fewer files

Where some files of a tree are overwritten or taken out, the directories stay as they are. A search
finds the files that are left, in the same order, and looks at nothing else; so patterns without
steps up match the same but for what is taken out, and their faults are the same.
-/

namespace DesignTokens

namespace FileTree

variable {t t' : FileTree} {left gone : Location → Bool} {bytes : Location → Option (List UInt8)}
  {at_ location : Location} {name : String}

/-- The tree with other bytes in some of its files. -/
def overwritten (t : FileTree) (bytes : Location → Option (List UInt8)) : FileTree :=
  ⟨t.nodes.map fun n => (n.1, ((bytes n.1).map Node.file).getD n.2)⟩

/-- The tree without what is at some locations. -/
def without (t : FileTree) (gone : Location → Bool) : FileTree :=
  ⟨t.nodes.filter fun n => !gone n.1⟩

/-- What leads to a directory starts at one. -/
theorem hasDirectory_of_walk {segments : List String} (h : t.walk at_ segments = .ok location)
    (hdirectory : t.hasDirectory location = true) : t.hasDirectory at_ = true := by
  cases segments with
  | nil =>
    obtain rfl := Except.ok.inj h
    exact hdirectory
  | cons segment rest =>
    rw [← List.singleton_append, walk_append_eq_bind] at h
    obtain ⟨n, hn, -⟩ := bind_eq_ok_iff.mp h
    exact (FileTree.walk_singleton_eq_ok_iff.mp hn).1

/-- A tree with the directories of another one and those of its files that are left. -/
structure Thins (left : Location → Bool) (t t' : FileTree) : Prop where
  tree : t'.WellFormed
  isSome_eq : ∀ l, (t'.node? l).isSome = ((t.node? l).isSome && left l)
  hasDirectory_eq : ∀ l, t'.hasDirectory l = t.hasDirectory l
  children_eq : ∀ at_, t'.children at_ = (t.children at_).filter fun name => left (at_ ++ [name])
  directoriesBelow_eq : ∀ at_, t'.directoriesBelow at_ = t.directoriesBelow at_

namespace Thins

theorem left_of_hasDirectory (h : Thins left t t') (hdirectory : t.hasDirectory location = true) :
    left location = true := by
  have hthere := isSome_of_hasDirectory ((h.hasDirectory_eq location).trans hdirectory)
  rw [h.isSome_eq] at hthere
  exact (Bool.and_eq_true_iff.mp hthere).2

theorem hasFile_eq (h : Thins left t t') (l : Location) :
    t'.hasFile l = (t.hasFile l && left l) := by
  have hsplit : ∀ u : FileTree, u.hasFile l = ((u.node? l).isSome && !u.hasDirectory l) := by
    intro u
    unfold hasFile hasDirectory
    rcases u.node? l with _ | content | _ <;> rfl
  rw [hsplit, hsplit, h.isSome_eq, h.hasDirectory_eq, Bool.and_right_comm]

/-- One segment leads where it led, if that is left. -/
theorem walk_singleton_eq_ok_iff (h : Thins left t t') (ht : t.WellFormed) {segment : String} :
    t'.walk at_ [segment] = .ok location ↔
      t.walk at_ [segment] = .ok location ∧ left location = true := by
  rw [FileTree.walk_singleton_eq_ok_iff, FileTree.walk_singleton_eq_ok_iff, h.hasDirectory_eq,
    h.isSome_eq, Bool.and_eq_true]
  constructor
  · rintro ⟨hat, ⟨hplace, rfl⟩ | ⟨hup, rfl⟩ | ⟨hname, hshort, ⟨hthere, hleft⟩, rfl⟩⟩
    · exact ⟨⟨hat, .inl ⟨hplace, rfl⟩⟩, h.left_of_hasDirectory hat⟩
    · refine ⟨⟨hat, .inr (.inl ⟨hup, rfl⟩)⟩, h.left_of_hasDirectory ?_⟩
      exact ht.hasDirectory_dropLast (isSome_of_hasDirectory hat)
    · exact ⟨⟨hat, .inr (.inr ⟨hname, hshort, hthere, rfl⟩)⟩, hleft⟩
  · rintro ⟨⟨hat, hplace | hup | ⟨hname, hshort, hthere, rfl⟩⟩, hleft⟩
    · exact ⟨hat, .inl hplace⟩
    · exact ⟨hat, .inr (.inl hup)⟩
    · exact ⟨hat, .inr (.inr ⟨hname, hshort, ⟨hthere, hleft⟩, rfl⟩)⟩

/-- The path of something that is left leads there. -/
theorem locate_rooted (h : Thins left t t') (ht : t.WellFormed)
    (hthere : (t.node? location).isSome = true) (hleft : left location = true)
    {directory target : Location}
    (hlocate : t.locate directory (PathText.rooted location) = .ok target) (other : Location) :
    t'.locate other (PathText.rooted location) = .ok location := by
  have hsegments : ∀ s ∈ location, PathText.IsSegment s :=
    fun s hs => (ht.isProper_of_isSome hthere s hs).1
  have hthere' : (t'.node? ([] ++ location)).isSome = true := by
    rw [List.nil_append, h.isSome_eq, hthere, hleft]
    rfl
  rw [FileTree.locate_rooted hsegments (utf8ByteSize_le_of_locate hlocate),
    h.tree.walk_names hthere', List.nil_append]

/-- Segments that lead to a directory lead there still. -/
theorem walk_directory (h : Thins left t t') (ht : t.WellFormed) {segments : List String}
    (hwalk : t.walk at_ segments = .ok location) (hdirectory : t.hasDirectory location = true) :
    t'.walk at_ segments = .ok location := by
  induction segments generalizing at_ with
  | nil => exact hwalk
  | cons segment rest ih =>
    rw [← List.singleton_append, walk_append_eq_bind] at hwalk ⊢
    obtain ⟨n, hn, hrest⟩ := bind_eq_ok_iff.mp hwalk
    have hleft := h.left_of_hasDirectory (hasDirectory_of_walk hrest hdirectory)
    have hn' := (h.walk_singleton_eq_ok_iff ht).mpr ⟨hn, hleft⟩
    exact bind_eq_ok_iff.mpr ⟨n, hn', ih hrest⟩

/-- The path of a directory is one still. -/
theorem isDirectory (h : Thins left t t') (ht : t.WellFormed) {directory : Location} {path : String}
    (hpath : t.isDirectory directory path = true) : t'.isDirectory directory path = true := by
  unfold FileTree.isDirectory at hpath ⊢
  cases hlocate : t.locate directory path with
  | error fault =>
    rw [hlocate] at hpath
    cases hpath
  | ok target =>
    rw [hlocate] at hpath
    have hlocate' : t'.locate directory path = .ok target := by
      unfold locate at hlocate ⊢
      split at hlocate
      · cases hlocate
      split at hlocate
      · cases hlocate
      rename_i hempty hlong
      rw [if_neg hempty, if_neg hlong]
      exact h.walk_directory ht hlocate hpath
    rw [hlocate']
    exact (h.hasDirectory_eq target).trans hpath

end Thins

section Overwritten

/-- What is at a location of the tree with other bytes in files. -/
theorem node?_overwritten (t : FileTree) (hroot : bytes [] = none) (l : Location) :
    (t.overwritten bytes).node? l =
      (t.node? l).map fun node => ((bytes l).map Node.file).getD node := by
  unfold node? overwritten
  split
  · rename_i hl
    rw [hl, hroot]
    rfl
  induction t.nodes with
  | nil => rfl
  | cons n nodes ih =>
    obtain ⟨key, node⟩ := n
    rw [List.map_cons, List.lookup_cons, List.lookup_cons]
    cases hkey : l == key with
    | true =>
      obtain rfl := beq_iff_eq.mp hkey
      rfl
    | false => exact ih

/-- A tree with other bytes in some of its files has all the files. -/
theorem thins_overwritten (ht : t.WellFormed)
    (hbytes : ∀ l, t.hasDirectory l = true → bytes l = none) :
    Thins (fun _ => true) t (t.overwritten bytes) := by
  have hroot := hbytes [] t.hasDirectory_root
  have hdirectory : ∀ l, (t.overwritten bytes).hasDirectory l = t.hasDirectory l := by
    intro l
    have hkept := hbytes l
    rw [hasDirectory_iff] at hkept
    unfold hasDirectory
    rw [node?_overwritten t hroot]
    rcases hnode : t.node? l with _ | content | _
    · rfl
    · cases bytes l <;> rfl
    · rw [hkept hnode]
      rfl
  constructor
  case tree =>
    constructor
    case once =>
      unfold overwritten
      rw [List.map_map]
      exact ht.once
    case named =>
      intro n hn
      obtain ⟨m, hm, rfl⟩ := List.mem_map.mp hn
      exact ht.named m hm
    case housed =>
      intro n hn
      obtain ⟨m, hm, rfl⟩ := List.mem_map.mp hn
      exact (hdirectory _).trans (ht.housed m hm)
  case isSome_eq =>
    intro l
    rw [node?_overwritten t hroot, Option.isSome_map, Bool.and_true]
  case hasDirectory_eq => exact hdirectory
  case children_eq =>
    intro at_
    unfold children overwritten
    rw [List.filterMap_map, List.filter_eq_self.mpr fun _ _ => rfl]
    rfl
  case directoriesBelow_eq =>
    intro at_
    unfold directoriesBelow overwritten
    rw [List.filterMap_map]
    refine congrArg (List.cons []) (List.filterMap_congr fun n hn => ?_)
    have hnode := (ht.node?_eq_some_iff (ht.named n hn).1).mpr hn
    have hsame : ((bytes n.1).map Node.file).getD n.2 = .directory ↔ n.2 = .directory := by
      have hthere := hdirectory n.1
      unfold hasDirectory at hthere
      rw [node?_overwritten t hroot, hnode] at hthere
      simpa using hthere
    simp only [Function.comp_apply, hsame]

end Overwritten

section Without

theorem node?_without (t : FileTree) (hroot : gone [] = false) (l : Location) :
    (t.without gone).node? l = if gone l = true then none else t.node? l := by
  cases hl : gone l with
  | false =>
    refine node?_eq_of_filter (p := fun l => !gone l) (by rw [hl]; rfl) ?_
    unfold without
    rw [List.filter_filter]
    simp only [Bool.and_self]
  | true =>
    have hne : l ≠ [] := by
      rintro rfl
      rw [hroot] at hl
      cases hl
    unfold node? without
    rw [if_neg hne, if_pos rfl, List.lookup_eq_none_iff]
    intro n hn
    have hkept := (List.mem_filter.mp hn).2
    rw [bne_iff_ne]
    rintro rfl
    rw [hl] at hkept
    cases hkept

/-- A tree without some of its files has the others. -/
theorem thins_without (ht : t.WellFormed)
    (hkept : ∀ l, t.hasDirectory l = true → gone l = false) :
    Thins (fun l => !gone l) t (t.without gone) := by
  have hnode := node?_without t (hkept [] t.hasDirectory_root)
  have hdirectory : ∀ l, (t.without gone).hasDirectory l = t.hasDirectory l := by
    intro l
    rw [Bool.eq_iff_iff, hasDirectory_iff, hasDirectory_iff, hnode]
    have hopen := hkept l
    rw [hasDirectory_iff] at hopen
    cases hl : gone l with
    | false => simp
    | true =>
      rw [hl] at hopen
      simpa using hopen
  constructor
  case tree =>
    constructor
    case once => exact ht.once.sublist (List.filter_sublist.map Prod.fst)
    case named => exact fun n hn => ht.named n (List.mem_filter.mp hn).1
    case housed =>
      exact fun n hn => (hdirectory _).trans (ht.housed n (List.mem_filter.mp hn).1)
  case isSome_eq =>
    intro l
    rw [hnode]
    cases gone l <;> simp
  case hasDirectory_eq => exact hdirectory
  case children_eq =>
    intro at_
    unfold children without
    rw [List.filterMap_filter, List.filter_filterMap]
    refine List.filterMap_congr fun n _ => ?_
    by_cases habove : n.1.dropLast = at_
    · rw [if_pos habove]
      cases hlast : n.1.getLast? with
      | none => cases gone n.1 <;> rfl
      | some name =>
        have hlocation : at_ ++ [name] = n.1 := by
          rw [← habove, List.dropLast_append_getLast? name hlast]
        rw [Option.filter_some, hlocation]
    · rw [if_neg habove]
      cases gone n.1 <;> rfl
  case directoriesBelow_eq =>
    intro at_
    unfold directoriesBelow without
    rw [List.filterMap_filter]
    refine congrArg (List.cons []) (List.filterMap_congr fun n hn => ?_)
    split
    · rfl
    · rename_i hleft
      rw [if_neg]
      rintro ⟨hn2, -⟩
      have hthere := (ht.node?_eq_some_iff (ht.named n hn).1).mpr hn
      rw [hn2] at hthere
      rw [hkept n.1 (hasDirectory_iff.mpr hthere)] at hleft
      exact hleft rfl

end Without

end FileTree

end DesignTokens
