import DesignTokens.Proofs.Files.Thinned

/-!
# Searches in trees with fewer files

A search goes through directories only, so taking files out takes just them out of what it finds.
It looks at less then, but at nothing new, and what it no longer looks at could be looked at. So
patterns without steps up keep their faults, and discovery lists the paths that are left with the
same complaints.
-/

namespace DesignTokens

open FileTree

variable {t t' : FileTree} {left : Location → Bool} {at_ location : Location}

namespace Glob

variable {s : Segment} {rest parsed : List Segment} {hit n : Hit} {root pattern : String}

/-- In the thinned tree the next hits are those that are left. -/
theorem next_eq_filter (h : Thins left t t') (ht : t.WellFormed)
    (hdirectory : t.hasDirectory hit.location = true) :
    next t' s hit = (next t s hit).filter fun n => left n.location := by
  cases s with
  | directoryOnly =>
    have hleft := h.left_of_hasDirectory hdirectory
    simp [next, hleft]
  | fixed name =>
    have hwalk : ∀ l, t'.walk hit.location [name] = .ok l ↔
        t.walk hit.location [name] = .ok l ∧ left l = true :=
      fun l => h.walk_singleton_eq_ok_iff ht
    simp only [next]
    cases hnext : t.walk hit.location [name] with
    | error fault =>
      cases hnext' : t'.walk hit.location [name] with
      | error fault' => rfl
      | ok l =>
        rw [((hwalk l).mp hnext').1] at hnext
        cases hnext
    | ok l =>
      cases hleft : left l with
      | true =>
        rw [(hwalk l).mpr ⟨hnext, hleft⟩]
        simp [hleft]
      | false =>
        cases hnext' : t'.walk hit.location [name] with
        | error fault' => simp [hleft]
        | ok l' =>
          obtain ⟨hsame, hleft'⟩ := (hwalk l').mp hnext'
          obtain rfl := Except.ok.inj (hnext.symm.trans hsame)
          rw [hleft] at hleft'
          cases hleft'
  | wild pattern =>
    simp only [next, h.children_eq, List.filter_map, List.filter_filter, Function.comp_def,
      Bool.and_comm]
  | anyDirectories =>
    simp only [next, h.directoriesBelow_eq]
    symm
    rw [List.filter_eq_self]
    intro n hn
    obtain ⟨way, hway, rfl⟩ := List.mem_map.mp hn
    apply h.left_of_hasDirectory
    exact (ht.mem_directoriesBelow_iff hdirectory).mp hway

/-- A hit before the last segment is a directory. -/
theorem hasDirectory_of_mem_nextFor (hn : n ∈ nextFor t rest s hit) (hrest : rest ≠ []) :
    t.hasDirectory n.location = true := by
  have hopen := (List.mem_filter.mp hn).2
  rwa [List.isEmpty_eq_false_iff.mpr hrest, Bool.false_or] at hopen

/-- Only a last segment leads to what is taken out. -/
theorem rest_eq_nil_of_left (h : Thins left t t') (hn : n ∈ nextFor t rest s hit)
    (hleft : left n.location = false) : rest = [] := by
  by_contra hrest
  rw [h.left_of_hasDirectory (hasDirectory_of_mem_nextFor hn hrest)] at hleft
  cases hleft

/-- In the thinned tree the next hits for a segment are those that are left. -/
theorem nextFor_eq_filter (h : Thins left t t') (ht : t.WellFormed)
    (hdirectory : t.hasDirectory hit.location = true) :
    nextFor t' rest s hit = (nextFor t rest s hit).filter fun n => left n.location := by
  unfold nextFor
  rw [next_eq_filter h ht hdirectory, List.filter_filter, List.filter_filter]
  simp only [h.hasDirectory_eq, Bool.and_comm]

/-- A search finds what is left. -/
theorem select_eq_filter (h : Thins left t t') (ht : t.WellFormed)
    (hleft : left hit.location = true)
    (hdirectory : parsed ≠ [] → t.hasDirectory hit.location = true) :
    select t' parsed hit = (select t parsed hit).filter fun n => left n.location := by
  induction parsed generalizing hit with
  | nil => simp [select, hleft]
  | cons s rest ih =>
    unfold select
    rw [nextFor_eq_filter h ht (hdirectory (List.cons_ne_nil s rest)), List.filter_flatMap]
    apply flatMap_filter_congr
    · exact fun n hn hn' => ih hn' (hasDirectory_of_mem_nextFor hn)
    · intro n hn hn'
      obtain rfl := rest_eq_nil_of_left h hn hn'
      simp [select, hn']

/-- A search looks at the same of what has a property, if no file with it is taken out. -/
theorem filter_looks_eq (h : Thins left t t') (ht : t.WellFormed) {p : List String → Bool}
    (hdirectory : parsed ≠ [] → t.hasDirectory hit.location = true)
    (hout : ∀ n ∈ select t parsed hit, left n.location = false → p n.way = false) :
    (looks t' parsed hit).filter p = (looks t parsed hit).filter p := by
  induction parsed generalizing hit with
  | nil => rfl
  | cons s rest ih =>
    unfold looks
    rw [nextFor_eq_filter h ht (hdirectory (List.cons_ne_nil s rest)), List.filter_append,
      List.filter_append, List.filter_flatMap, List.filter_flatMap]
    congr 1
    apply flatMap_filter_congr
    · intro n hn _
      apply ih (hasDirectory_of_mem_nextFor hn)
      exact fun m hm => hout m (List.mem_flatMap.mpr ⟨n, hn, hm⟩)
    · intro n hn hn'
      obtain rfl := rest_eq_nil_of_left h hn hn'
      have hway := hout n (List.mem_flatMap.mpr ⟨n, hn, List.mem_singleton_self n⟩) hn'
      simp [looks, hway]

/-- A pattern without steps up finds what is left, if everything that is taken out can be looked
at. -/
theorem files_eq_filter [Nesting.Room] (h : Thins left t t') (ht : t.WellFormed)
    (hdirectory : t.hasDirectory at_ = true) (hstraight : IsStraight root pattern)
    (hout : ∀ way, (∀ name ∈ way, PathText.IsSegment name) → left (at_ ++ way) = false →
      isRefused root way = false) :
    files t' root at_ pattern = (files t root at_ pattern).map
      (Except.map (List.filter fun way => left (at_ ++ way))) := by
  unfold files
  cases hbelow : relativePattern root pattern with
  | error fault => rfl
  | ok relative =>
    dsimp only
    cases hcut : Glob.segments relative with
    | error e => rfl
    | ok answer =>
      cases answer with
      | error fault => rfl
      | ok parsed =>
        have hreads : Reads root pattern relative parsed := ⟨hbelow, hcut⟩
        have hleads : ∀ n ∈ select t parsed ⟨[], at_⟩, Leads t parsed at_ n.way n.location := by
          intro n hn
          simpa using (mem_select_iff ht hreads.plain fun _ => hdirectory).mp hn
        have hplace : ∀ n ∈ select t parsed ⟨[], at_⟩, n.location = at_ ++ n.way := fun n hn =>
          (hleads n hn).eq_append (hreads.up_notMem (hstraight relative hbelow))
        have hlooks : (looks t' parsed ⟨[], at_⟩).filter (isRefused root) =
            (looks t parsed ⟨[], at_⟩).filter (isRefused root) := by
          apply filter_looks_eq h ht fun _ => hdirectory
          intro n hn hleft
          rw [hplace n hn] at hleft
          exact hout n.way ((hleads n hn).isSegment ht) hleft
        have hfind : ([] :: looks t' parsed ⟨[], at_⟩).find? (isRefused root) =
            ([] :: looks t parsed ⟨[], at_⟩).find? (isRefused root) := by
          rw [← List.head?_filter, ← List.head?_filter, List.filter_cons, List.filter_cons, hlooks]
        simp only [bind, Except.bind, hfind]
        split
        · rfl
        · have hleft := h.left_of_hasDirectory hdirectory
          rw [select_eq_filter h ht hleft fun _ => hdirectory]
          simp only [Except.map]
          rw [List.filter_map, List.filter_filter, List.filter_filter]
          refine congrArg (fun hits : List Hit => Except.ok (Except.ok (hits.map (·.way)))) ?_
          refine List.filter_congr fun n hn => ?_
          rw [h.hasFile_eq, Function.comp_apply, ← hplace n hn]
          cases left n.location <;> simp

end Glob

namespace Discovery

variable {d : Discovery} {root : String} {keep : String → Bool} {w w' : World}
  {paths complaints : List String}

/-- Paths that are left out of what patterns find are left out of what is selected. -/
theorem select_filter [Nesting.Room] {ways : List (List String)}
    (h : d.select root ways = .ok paths)
    (keep : String → Bool) :
    d.select root (ways.filter fun way => keep (Glob.fullPath root way)) =
      .ok (paths.filter keep) := by
  obtain ⟨hjudged, rfl⟩ := select_eq_ok_iff.mp h
  refine select_eq_ok_iff.mpr ⟨fun way hway => hjudged way (List.mem_filter.mp hway).1, ?_⟩
  rw [filter_eraseDups, List.filter_filter, ← mergeSort_filter, List.filter_map,
    List.filter_filter]
  simp only [Function.comp_def, Bool.and_comm]

/-- What discovery takes from a tree with fewer files. What is taken out has been discovered. -/
structure LeavesOut [Nesting.Room] (keep : String → Bool) (d : Discovery) (t t' : FileTree)
    (at_ : Location) :
    Prop where
  thins : Thins (fun l => keep (PathText.rooted l)) t t'
  straight : d.IsStraight (PathText.rooted at_)
  seen : ∀ p, keep p = false → ∃ way location, d.Reaches t (PathText.rooted at_) at_ way location ∧
    p = Glob.fullPath (PathText.rooted at_) way

namespace LeavesOut

section Ways

variable [Nesting.Room] (h : LeavesOut keep d t t' at_) (ht : t.WellFormed)
  (hdirectory : t.hasDirectory at_ = true)

include h ht hdirectory

/-- What is taken out can be looked at. -/
theorem isRefused_eq_false {way : List String} (hway : ∀ name ∈ way, PathText.IsSegment name)
    (hout : keep (PathText.rooted (at_ ++ way)) = false) :
    Glob.isRefused (PathText.rooted at_) way = false := by
  obtain ⟨way', location, ⟨p, -, expanded, -, hfinds⟩, hpath⟩ := h.seen _ hout
  have hat := ht.isProper_of_isSome (isSome_of_hasDirectory hdirectory)
  have hnames : ∀ name ∈ at_ ++ way, PathText.IsSegment name := by
    intro name hname
    exact (List.mem_append.mp hname).elim (fun hname => (hat name hname).1) (hway name)
  rw [hfinds.fullPath_eq ht hdirectory] at hpath
  have hsame := PathText.rooted_injective hnames (hfinds.isSegment ht hdirectory) hpath
  rw [List.append_cancel_left hsame]
  exact hfinds.isRefused_eq_false ht hdirectory

variable {p : Spelling} {expanded : List Char}

/-- In the thinned tree an expansion finds the files that are left. -/
theorem files_eq (hp : .text p ∈ d.includePatterns)
    (hexpanded : expanded ∈ Braces.expand (Wildcard.characters p)) :
    Glob.files t' (PathText.rooted at_) at_ (String.ofList expanded) =
      (Glob.files t (PathText.rooted at_) at_ (String.ofList expanded)).map
        (Except.map (List.filter fun way => keep (PathText.rooted (at_ ++ way)))) :=
  Glob.files_eq_filter h.thins ht hdirectory (h.straight p hp expanded hexpanded)
    fun _ hway hout => h.isRefused_eq_false ht hdirectory hway hout

/-- In the thinned tree an expansion gives the ways that are left. -/
theorem waysOf_eq (hp : .text p ∈ d.includePatterns)
    (hexpanded : expanded ∈ Braces.expand (Wildcard.characters p)) :
    waysOf t' (PathText.rooted at_) at_ expanded =
      (waysOf t (PathText.rooted at_) at_ expanded).map
        (List.filter fun way => keep (PathText.rooted (at_ ++ way))) := by
  unfold waysOf
  rw [h.files_eq ht hdirectory hp hexpanded]
  rcases Glob.files t (PathText.rooted at_) at_ (String.ofList expanded) with e | fault | ways <;>
    rfl

/-- In the thinned tree the complaints are the same. -/
theorem complaintsOf_eq :
    complaintsOf t' (PathText.rooted at_) at_ d = complaintsOf t (PathText.rooted at_) at_ d := by
  refine List.flatMap_congr fun pattern hpattern => ?_
  cases pattern with
  | text p =>
    refine List.flatMap_congr fun expanded hexpanded => ?_
    unfold complaintOf
    rw [h.files_eq ht hdirectory hpattern hexpanded]
    rcases Glob.files t (PathText.rooted at_) at_ (String.ofList expanded) with e | fault | ways <;>
      rfl
  | _ => rfl

/-- A pattern matches what is left. -/
theorem waysOfPattern_eq {pattern : Value} (hpattern : pattern ∈ d.includePatterns) :
    waysOfPattern t' (PathText.rooted at_) at_ pattern =
      (waysOfPattern t (PathText.rooted at_) at_ pattern).map
        (List.filter fun way => keep (PathText.rooted (at_ ++ way))) := by
  cases pattern with
  | text p =>
    simp only [waysOfPattern, bind_ok_eq_map]
    cases hexpand : Braces.expansions (Wildcard.characters p) with
    | error e => rfl
    | ok patterns =>
      obtain rfl := Braces.eq_expand_of_expansions hexpand
      have hways :
          (Braces.expand (Wildcard.characters p)).mapM (waysOf t' (PathText.rooted at_) at_) =
          ((Braces.expand (Wildcard.characters p)).mapM (waysOf t (PathText.rooted at_) at_)).map
            (List.map (List.filter fun way => keep (PathText.rooted (at_ ++ way)))) := by
        rw [← mapM_map_eq_map]
        refine mapM_congr fun expanded hexpanded => ?_
        exact h.waysOf_eq ht hdirectory hpattern hexpanded
      simp only [bind, Except.bind, hways]
      cases (Braces.expand (Wildcard.characters p)).mapM (waysOf t (PathText.rooted at_) at_) with
      | error e => rfl
      | ok found => exact congrArg Except.ok List.filter_flatten.symm
  | _ => rfl

end Ways

/-- Discovery in the tree with fewer files lists the paths that are left, with the same
complaints. -/
theorem outcome_discover [Nesting.Room] (h : LeavesOut keep d w.files w'.files at_)
    (hw : w.Grounded)
    (hw' : w'.workingDirectory = w.workingDirectory) (hreal : root = PathText.rooted at_)
    (hopen : openRoot w root = .ok (root, at_))
    (hdiscovered : outcome (d.discover w root) [] = (.ok paths, complaints)) :
    outcome (d.discover w' root) [] = (.ok (paths.filter keep), complaints) := by
  subst hreal
  obtain ⟨-, hdirectory⟩ := of_openRoot hw hopen
  have hthere := isSome_of_hasDirectory hdirectory
  have hleft := h.thins.left_of_hasDirectory hdirectory
  obtain ⟨hanswer, rfl⟩ := (gives_discover d hopen).outcome_eq hdiscovered
  obtain ⟨found, hfound, hselect⟩ := bind_eq_ok_iff.mp hanswer
  have hplace : w'.directory = w.directory := congrArg PathText.plainSegments hw'
  have hground : w'.Grounded :=
    ⟨h.thins.tree, hw'.trans (hplace ▸ hw.path), hplace ▸ hw.names⟩
  have hlocate := locate_of_openRoot_rooted (hw.tree.isProper_of_isSome hthere) hopen
  have hopen' := openRoot_rooted hground ((h.thins.hasDirectory_eq at_).trans hdirectory)
    (h.thins.locate_rooted hw.tree hthere hleft hlocate w'.directory)
  have hfound' : d.includePatterns.mapM (waysOfPattern w'.files (PathText.rooted at_) at_) =
      .ok (found.map (List.filter fun way => keep (PathText.rooted (at_ ++ way)))) := by
    rw [mapM_congr fun pattern hpattern => h.waysOfPattern_eq hw.tree hdirectory hpattern,
      mapM_map_eq_map, hfound]
    rfl
  have hways : (found.map (List.filter fun way => keep (PathText.rooted (at_ ++ way)))).flatten =
      found.flatten.filter fun way => keep (Glob.fullPath (PathText.rooted at_) way) := by
    rw [← List.filter_flatten]
    refine List.filter_congr fun way hway => ?_
    obtain ⟨location, p, -, expanded, -, hfinds⟩ := (mem_ways_iff hw.tree hdirectory hfound).mp hway
    rw [hfinds.fullPath_eq hw.tree hdirectory]
  have hselect' : d.select (PathText.rooted at_)
      (found.map (List.filter fun way => keep (PathText.rooted (at_ ++ way)))).flatten =
        .ok (paths.filter keep) := hways ▸ select_filter hselect keep
  have hanswer' : (do
      let found ← d.includePatterns.mapM (waysOfPattern w'.files (PathText.rooted at_) at_)
      d.select (PathText.rooted at_) found.flatten) = .ok (paths.filter keep) :=
    bind_eq_ok_iff.mpr ⟨_, hfound', hselect'⟩
  obtain ⟨after, houtcome, hnotes⟩ := gives_discover d hopen' []
  rw [houtcome, hnotes _ hanswer', h.complaintsOf_eq hw.tree hdirectory]
  exact Prod.ext hanswer' rfl

end LeavesOut

end Discovery

end DesignTokens
