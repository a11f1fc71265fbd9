import DesignTokens.Proofs.Files.Found
import DesignTokens.Proofs.Files.Root
import DesignTokens.Proofs.Run
import Mathlib.Data.List.Nodup

/-!
# Discovery of files

A search through patterns answers the same whatever was noted before it, and only adds complaints.
So what discovery answers is computed from the patterns alone: the files that expansions of include
patterns find, kept or not by their paths, and a complaint for each expansion that cannot be
matched.
-/

namespace DesignTokens

/-- A pattern that is expanded stands for all its expansions. -/
theorem Braces.eq_expand_of_expansions [Nesting.Room] {s : List Char} {patterns : List (List Char)}
    (h : expansions s = .ok patterns) : patterns = expand s := by
  unfold expansions expansionsAt at h
  split at h
  · cases h
  · exact (Except.ok.inj h).symm

namespace Discovery

section Gives

variable {α β : Type}

/-- What a search answers whatever was noted before, and what it notes if it has an answer. -/
def Gives (x : Search α) (answer : Except Failure α) (notes : List String) : Prop :=
  ∀ before, ∃ after, outcome x before = (answer, after) ∧
    ∀ a, answer = .ok a → after = before ++ notes

namespace Gives

variable {x : Search α} {answer : Except Failure α} {notes : List String}

theorem pure (a : α) : Gives (pure a) (.ok a) [] :=
  fun before => ⟨before, rfl, fun _ _ => (List.append_nil before).symm⟩

theorem throw (e : Failure) : Gives (throw e : Search α) (.error e) notes :=
  fun before => ⟨before, rfl, fun _ h => by cases h⟩

theorem bind {f : α → Search β} {next : α → Except Failure β} {more : List String}
    (hx : Gives x answer notes) (hf : ∀ a, answer = .ok a → Gives (f a) (next a) more) :
    Gives (x >>= f) (answer >>= next) (notes ++ more) := by
  intro before
  obtain ⟨between, hfirst, hnotes⟩ := hx before
  cases answer with
  | error e => exact ⟨between, outcome_bind_of_error hfirst f, fun _ h => by cases h⟩
  | ok a =>
    obtain ⟨after, hsecond, hmore⟩ := hf a rfl between
    refine ⟨after, (outcome_bind_of_ok hfirst f).trans hsecond, fun b hb => ?_⟩
    rw [hmore b hb, hnotes a rfl, List.append_assoc]

/-- A search for each item of a list. -/
theorem mapM {f : α → Search β} {answer : α → Except Failure β} {notes : α → List String}
    {xs : List α} (h : ∀ x ∈ xs, Gives (f x) (answer x) (notes x)) :
    Gives (xs.mapM f) (xs.mapM answer) (xs.flatMap notes) := by
  induction xs with
  | nil => exact Gives.pure []
  | cons x xs ih =>
    rw [List.mapM_cons, List.mapM_cons, List.flatMap_cons]
    refine (h x List.mem_cons_self).bind fun y _ => ?_
    rw [← List.append_nil (xs.flatMap notes)]
    refine (ih fun x' hx' => h x' (List.mem_cons_of_mem x hx')).bind fun ys _ => ?_
    exact Gives.pure (y :: ys)

theorem ofExcept (r : Except Failure α) : Gives (Discovery.ofExcept r) r [] := by
  cases r with
  | error e => exact Gives.throw e
  | ok a => exact Gives.pure a

/-- The outcome from an empty list of notes. -/
theorem outcome_eq (h : Gives x answer notes) {a : α} {complaints : List String}
    (hx : outcome x [] = (.ok a, complaints)) : answer = .ok a ∧ complaints = notes := by
  obtain ⟨after, hafter, hnotes⟩ := h []
  rw [hafter] at hx
  obtain ⟨hanswer, hcomplaints⟩ := Prod.mk.inj hx
  exact ⟨hanswer, hcomplaints ▸ hnotes a hanswer⟩

end Gives

end Gives

section Patterns

variable [Nesting.Room]

variable (t : FileTree) (root : String) (at_ : Location)

/-- The answer to one expansion: what it matches, and nothing if it cannot be matched. -/
def waysOf (expanded : List Char) : Except Failure (List (List String)) :=
  (Glob.files t root at_ (String.ofList expanded)).map fun answer => answer.toOption.getD []

/-- The complaint about one expansion of a pattern, if it cannot be matched. -/
def complaintOf (pattern : Spelling) (expanded : List Char) : List String :=
  match Glob.files t root at_ (String.ofList expanded) with
  | .ok (.error fault) => [complaint pattern fault]
  | _ => []

/-- What the expansions of an include pattern match. -/
def waysOfPattern : Value → Except Failure (List (List String))
  | .text p => do
    let found ← (← Braces.expansions (Wildcard.characters p)).mapM (waysOf t root at_)
    .ok found.flatten
  | _ => .error .wrongKind

/-- The complaints about the expansions of an include pattern. -/
def complaintsOfPattern : Value → List String
  | .text p =>
    (Braces.expand (Wildcard.characters p)).flatMap (complaintOf t root at_ p)
  | _ => []

/-- The complaints about the include patterns. -/
def complaintsOf (d : Discovery) : List String :=
  d.includePatterns.flatMap (complaintsOfPattern t root at_)

variable {t root at_}

theorem gives_filesOf (pattern : Spelling) (expanded : List Char) :
    Gives (filesOf t root at_ pattern expanded) (waysOf t root at_ expanded)
      (complaintOf t root at_ pattern expanded) := by
  unfold filesOf waysOf complaintOf
  rcases Glob.files t root at_ (String.ofList expanded) with e | fault | ways
  · exact Gives.throw e
  · exact fun before => ⟨_, rfl, fun _ _ => rfl⟩
  · exact Gives.pure ways

theorem gives_filesOfPattern (pattern : Value) :
    Gives (filesOfPattern t root at_ pattern) (waysOfPattern t root at_ pattern)
      (complaintsOfPattern t root at_ pattern) := by
  unfold filesOfPattern waysOfPattern complaintsOfPattern
  cases pattern with
  | text p =>
    by_cases hlimit : Nesting.Site.expansion.limit < Braces.pairs (Wildcard.characters p)
    · have hmany : Braces.expansions (Wildcard.characters p) = .error (.tooDeep .groups) :=
        if_pos hlimit
      simp only [hmany]
      exact Gives.throw _
    · have hexpand : Braces.expansions (Wildcard.characters p) =
          .ok (Braces.expand (Wildcard.characters p)) := if_neg hlimit
      simp only [hexpand]
      rw [← List.append_nil (List.flatMap _ _)]
      refine (Gives.mapM fun expanded _ => gives_filesOf p expanded).bind fun found _ => ?_
      exact Gives.pure found.flatten
  | _ => exact Gives.throw _

/-- Discovery below an opened root. -/
theorem gives_discover (d : Discovery) {w : World} {top path : String}
    (hroot : openRoot w path = .ok (top, at_)) :
    Gives (d.discover w path)
      (do d.select top (← d.includePatterns.mapM (waysOfPattern w.files top at_)).flatten)
      (complaintsOf w.files top at_ d) := by
  have hfindings : Gives (d.findings w.files top at_)
      (do .ok (← d.includePatterns.mapM (waysOfPattern w.files top at_)).flatten)
      (complaintsOf w.files top at_ d) := by
    unfold findings complaintsOf
    rw [← List.append_nil (List.flatMap _ _)]
    refine (Gives.mapM fun pattern _ => gives_filesOfPattern pattern).bind fun found _ => ?_
    exact Gives.pure found.flatten
  have hselect := hfindings.bind fun found _ => Gives.ofExcept (d.select top found)
  rw [List.append_nil, bind_assoc] at hselect
  unfold discover
  rw [hroot]
  exact hselect

end Patterns

section Reached

variable [Nesting.Room]

variable {t : FileTree} {root : String} {at_ location : Location} {way : List String}
  {d : Discovery}

/-- The files that expansions of include patterns find, by the segments that lead to them and their
locations. -/
def Reaches (d : Discovery) (t : FileTree) (root : String) (at_ : Location) (way : List String)
    (location : Location) : Prop :=
  ∃ p : Spelling, .text p ∈ d.includePatterns ∧
    ∃ expanded ∈ Braces.expand (Wildcard.characters p),
      Glob.Finds t root at_ (String.ofList expanded) way location

/-- The answer to an expansion is what it finds. -/
theorem mem_waysOf_iff (ht : t.WellFormed) (hdirectory : t.hasDirectory at_ = true)
    {expanded : List Char} {ways : List (List String)} (h : waysOf t root at_ expanded = .ok ways) :
    way ∈ ways ↔ ∃ location, Glob.Finds t root at_ (String.ofList expanded) way location := by
  unfold waysOf at h
  rcases hfiles : Glob.files t root at_ (String.ofList expanded) with e | fault | found
  · rw [hfiles] at h
    cases h
  · rw [hfiles] at h
    obtain rfl := Except.ok.inj h
    constructor
    · intro hmem
      cases hmem
    · rintro ⟨location, relative, parsed, husable, -⟩
      rw [Glob.files_of_usable husable] at hfiles
      cases hfiles
  · rw [hfiles] at h
    obtain rfl := Except.ok.inj h
    exact Glob.mem_files_iff ht hdirectory hfiles

/-- A pattern is answered when each of its expansions is, with all that they match. -/
theorem exists_of_waysOfPattern {p : Spelling} {ways : List (List String)}
    (h : waysOfPattern t root at_ (.text p) = .ok ways) :
    ∃ answers, (Braces.expand (Wildcard.characters p)).mapM (waysOf t root at_) = .ok answers ∧
      ways = answers.flatten := by
  obtain ⟨expansions, hexpansions, h⟩ := bind_eq_ok_iff.mp h
  obtain ⟨answers, hanswers, hflat⟩ := bind_eq_ok_iff.mp h
  obtain rfl := Braces.eq_expand_of_expansions hexpansions
  exact ⟨answers, hanswers, (Except.ok.inj hflat).symm⟩

/-- What an include pattern matches is what its expansions find. -/
theorem mem_waysOfPattern_iff (ht : t.WellFormed) (hdirectory : t.hasDirectory at_ = true)
    {p : Spelling} {ways : List (List String)} (h : waysOfPattern t root at_ (.text p) = .ok ways) :
    way ∈ ways ↔ ∃ expanded ∈ Braces.expand (Wildcard.characters p), ∃ location,
      Glob.Finds t root at_ (String.ofList expanded) way location := by
  obtain ⟨answers, hanswers, rfl⟩ := exists_of_waysOfPattern h
  rw [List.mem_flatten]
  constructor
  · rintro ⟨answer, hanswer, hway⟩
    obtain ⟨expanded, hexpanded, hwaysOf⟩ := (mem_iff_of_mapM hanswers).mp hanswer
    exact ⟨expanded, hexpanded, (mem_waysOf_iff ht hdirectory hwaysOf).mp hway⟩
  · rintro ⟨expanded, hexpanded, hfinds⟩
    obtain ⟨answer, hanswer, hwaysOf⟩ := exists_ok_of_mapM hanswers hexpanded
    exact ⟨answer, hanswer, (mem_waysOf_iff ht hdirectory hwaysOf).mpr hfinds⟩

/-- What include patterns match is what their expansions find. -/
theorem mem_ways_iff (ht : t.WellFormed) (hdirectory : t.hasDirectory at_ = true)
    {found : List (List (List String))}
    (h : d.includePatterns.mapM (waysOfPattern t root at_) = .ok found) :
    way ∈ found.flatten ↔ ∃ location, d.Reaches t root at_ way location := by
  rw [List.mem_flatten]
  constructor
  · rintro ⟨ways, hways, hway⟩
    obtain ⟨pattern, hmem, hanswer⟩ := (mem_iff_of_mapM h).mp hways
    cases pattern with
    | text p =>
      obtain ⟨expanded, hexpanded, location, hfinds⟩ :=
        (mem_waysOfPattern_iff ht hdirectory hanswer).mp hway
      exact ⟨location, p, hmem, expanded, hexpanded, hfinds⟩
    | _ => cases hanswer
  · rintro ⟨location, p, hmem, expanded, hexpanded, hfinds⟩
    obtain ⟨ways, hways, hanswer⟩ := exists_ok_of_mapM h hmem
    refine ⟨ways, hways, (mem_waysOfPattern_iff ht hdirectory hanswer).mpr ?_⟩
    exact ⟨expanded, hexpanded, location, hfinds⟩

end Reached

section Selected

variable {d : Discovery} {root : String} {ways : List (List String)} {paths : List String}

/-- Paths in the order of their characters. -/
theorem pairwise_mergeSort_le (xs : List String) :
    (xs.mergeSort fun a b => decide (a ≤ b)).Pairwise (· ≤ ·) := by
  have htrans : ∀ a b c : String, decide (a ≤ b) = true → decide (b ≤ c) = true →
      decide (a ≤ c) = true := by
    intro a b c hab hbc
    exact decide_eq_true (String.le_trans (of_decide_eq_true hab) (of_decide_eq_true hbc))
  have htotal : ∀ a b : String, (decide (a ≤ b) || decide (b ≤ a)) = true := by
    intro a b
    simpa using String.le_total a b
  exact (List.pairwise_mergeSort htrans htotal xs).imp of_decide_eq_true

/-- What is left of sorted paths is sorted. -/
theorem mergeSort_filter (p : String → Bool) (xs : List String) :
    ((xs.filter p).mergeSort fun a b => decide (a ≤ b)) =
      (xs.mergeSort fun a b => decide (a ≤ b)).filter p := by
  apply List.Perm.eq_of_pairwise fun a b _ _ hab hba => String.le_antisymm hab hba
  · exact pairwise_mergeSort_le (xs.filter p)
  · exact (pairwise_mergeSort_le xs).filter p
  · exact (List.mergeSort_perm _ _).trans ((List.mergeSort_perm xs _).symm.filter p)

/-- Selecting is filtering, when all ways can be judged. -/
theorem select_eq_ok_iff [Nesting.Room] :
    d.select root ways = .ok paths ↔
      (∀ way ∈ ways, ∃ kept, d.keeps root way = .ok kept) ∧
        paths = ((ways.eraseDups.filter (passes (d.keeps root))).map (Glob.fullPath root)).mergeSort
          fun a b => decide (a ≤ b) := by
  unfold select
  rw [bind_eq_ok_iff]
  simp only [filterM_eq_ok_iff, List.mem_eraseDups, Except.ok.injEq]
  constructor
  · rintro ⟨kept, ⟨hjudged, rfl⟩, rfl⟩
    exact ⟨hjudged, rfl⟩
  · rintro ⟨hjudged, rfl⟩
    exact ⟨_, ⟨hjudged, rfl⟩, rfl⟩

/-- The paths to read are those of the ways that are kept. -/
theorem mem_of_select [Nesting.Room] (h : d.select root ways = .ok paths) {path : String} :
    path ∈ paths ↔
      ∃ way ∈ ways, d.keeps root way = .ok true ∧ path = Glob.fullPath root way := by
  obtain ⟨hjudged, rfl⟩ := select_eq_ok_iff.mp h
  have hkept : ∀ way ∈ ways, (passes (d.keeps root) way = true ↔ d.keeps root way = .ok true) := by
    intro way hway
    obtain ⟨kept, hkept⟩ := hjudged way hway
    simp only [passes, hkept, Except.ok.injEq]
  rw [List.mem_mergeSort, List.mem_map]
  simp only [List.mem_filter, List.mem_eraseDups]
  constructor
  · rintro ⟨way, ⟨hway, hpasses⟩, rfl⟩
    exact ⟨way, hway, (hkept way hway).mp hpasses, rfl⟩
  · rintro ⟨way, hway, hkeeps, rfl⟩
    exact ⟨way, ⟨hway, (hkept way hway).mpr hkeeps⟩, rfl⟩

/-- The paths to read are in order, each once if different ways have different paths. -/
theorem pairwise_of_select [Nesting.Room] (h : d.select root ways = .ok paths)
    (hinjective : ∀ way ∈ ways, ∀ other ∈ ways,
      Glob.fullPath root way = Glob.fullPath root other → way = other) :
    paths.Pairwise (· < ·) := by
  obtain ⟨-, rfl⟩ := select_eq_ok_iff.mp h
  have hnodup :
      ((ways.eraseDups.filter (passes (d.keeps root))).map (Glob.fullPath root)).Nodup := by
    have hmem : ∀ way ∈ ways.eraseDups.filter (passes (d.keeps root)), way ∈ ways :=
      fun way hway => List.mem_eraseDups.mp (List.mem_filter.mp hway).1
    refine List.Nodup.map_on ?_ ((nodup_eraseDups ways).filter _)
    intro way hway other hother
    exact hinjective way (hmem way hway) other (hmem other hother)
  have hsorted := pairwise_mergeSort_le
    ((ways.eraseDups.filter (passes (d.keeps root))).map (Glob.fullPath root))
  have hapart := (List.mergeSort_perm _ fun a b => decide (a ≤ b)).nodup_iff.mpr hnodup
  -- Sorted and without repetitions is strictly sorted.
  refine (hsorted.and hapart).imp ?_
  rintro a b ⟨hle, hne⟩
  apply String.not_le.mp
  intro hge
  exact hne (String.le_antisymm hle hge)

end Selected

section Discovered

variable {d : Discovery} {w : World} {path top : String} {at_ : Location}
  {paths complaints : List String}

/-- Rules whose include patterns take no step up. -/
def IsStraight (d : Discovery) (root : String) : Prop :=
  ∀ p : Spelling, .text p ∈ d.includePatterns →
    ∀ expanded ∈ Braces.expand (Wildcard.characters p),
      Glob.IsStraight root (String.ofList expanded)

/-- A relative path without alternatives stands for itself below every root. -/
theorem eq_of_relativePattern_expand {p : Spelling} {text relative : String} {expanded : List Char}
    (hone : Braces.expand (Wildcard.characters p) = [text.toList]) (hne : text ≠ "")
    (hrelative : PathText.isAbsolute text = false)
    (hexpanded : expanded ∈ Braces.expand (Wildcard.characters p))
    (hbelow : Glob.relativePattern path (String.ofList expanded) = .ok relative) :
    relative = text := by
  rw [hone] at hexpanded
  obtain rfl := List.mem_singleton.mp hexpanded
  rw [String.ofList_toList, Glob.relativePattern_of_relative hne hrelative] at hbelow
  exact (Except.ok.inj hbelow).symm

variable [Nesting.Room]

/-- What discovery answers and notes below an opened root, said by its patterns. -/
structure Discovered (d : Discovery) (t : FileTree) (root : String) (at_ : Location)
    (paths complaints : List String) : Prop where
  /-- The paths of the files that are found and kept. -/
  mem_iff : ∀ p, p ∈ paths ↔
    ∃ way location, d.Reaches t root at_ way location ∧ d.keeps root way = .ok true ∧
      p = Glob.fullPath root way
  /-- In order, each once. -/
  pairwise : paths.Pairwise (· < ·)
  /-- Every expansion of an include pattern is answered with files or a fault. -/
  answered : ∀ p : Spelling, .text p ∈ d.includePatterns →
    ∀ expanded ∈ Braces.expand (Wildcard.characters p),
      ∃ answer, Glob.files t root at_ (String.ofList expanded) = .ok answer
  /-- A complaint for each fault. -/
  complaints_eq : complaints = complaintsOf t root at_ d

/-- Discovery answers with what the include patterns match, selected. -/
theorem discovered_of_outcome (hw : w.Grounded) (hroot : openRoot w path = .ok (top, at_))
    (h : outcome (d.discover w path) [] = (.ok paths, complaints)) :
    Discovered d w.files top at_ paths complaints := by
  obtain ⟨rfl, hdirectory⟩ := of_openRoot hw hroot
  obtain ⟨hanswer, hcomplaints⟩ := (gives_discover d hroot).outcome_eq h
  obtain ⟨found, hfound, hselect⟩ := bind_eq_ok_iff.mp hanswer
  have hways : ∀ way, way ∈ found.flatten ↔
      ∃ location, d.Reaches w.files (PathText.rooted at_) at_ way location :=
    fun way => mem_ways_iff hw.tree hdirectory hfound
  constructor
  case mem_iff =>
    intro p
    rw [mem_of_select hselect]
    constructor
    · rintro ⟨way, hway, hkeeps, rfl⟩
      obtain ⟨location, hreaches⟩ := (hways way).mp hway
      exact ⟨way, location, hreaches, hkeeps, rfl⟩
    · rintro ⟨way, location, hreaches, hkeeps, rfl⟩
      exact ⟨way, (hways way).mpr ⟨location, hreaches⟩, hkeeps, rfl⟩
  case pairwise =>
    apply pairwise_of_select hselect
    intro way hway other hother heq
    obtain ⟨location, p, -, expanded, -, hfinds⟩ := (hways way).mp hway
    obtain ⟨location', p', -, expanded', -, hfinds'⟩ := (hways other).mp hother
    exact hfinds.eq_of_fullPath_eq hw.tree hdirectory hfinds' heq
  case answered =>
    intro p hp expanded hexpanded
    obtain ⟨ways, -, hways⟩ := exists_ok_of_mapM hfound hp
    obtain ⟨answers, hanswers, -⟩ := exists_of_waysOfPattern hways
    obtain ⟨ways, -, hwaysOf⟩ := exists_ok_of_mapM hanswers hexpanded
    unfold waysOf at hwaysOf
    cases hfiles : Glob.files w.files (PathText.rooted at_) at_ (String.ofList expanded) with
    | error e =>
      rw [hfiles] at hwaysOf
      cases hwaysOf
    | ok answer => exact ⟨answer, rfl⟩
  case complaints_eq => exact hcomplaints

/-- Discovery answers only below an opened root. -/
theorem exists_openRoot (h : outcome (d.discover w path) [] = (.ok paths, complaints)) :
    ∃ top at_, openRoot w path = .ok (top, at_) := by
  unfold discover at h
  cases hroot : openRoot w path with
  | error e =>
    rw [hroot] at h
    cases h
  | ok opened => exact ⟨opened.1, opened.2, rfl⟩

/-- Discovery answers only below the path of a directory. -/
theorem exists_openRoot_realPath (hw : w.Grounded)
    (h : outcome (d.discover w (w.realPath path)) [] = (.ok paths, complaints)) :
    ∃ at_, openRoot w (w.realPath path) = .ok (w.realPath path, at_) ∧
      w.realPath path = PathText.rooted at_ ∧ w.files.hasDirectory at_ = true := by
  obtain ⟨top, at_, hroot⟩ := exists_openRoot h
  obtain ⟨rfl, hdirectory⟩ := of_openRoot hw hroot
  obtain ⟨names, hreal, hnames⟩ := w.exists_realPath_eq path
  rw [hreal] at hroot ⊢
  obtain rfl := eq_of_openRoot_rooted hnames hw hroot
  exact ⟨names, hroot, rfl, hdirectory⟩

namespace Discovered

variable {t : FileTree}

/-- A discovered path leads to a file, and its normal form is the path of that file. -/
theorem exists_location (h : Discovered d t (PathText.rooted at_) at_ paths complaints)
    (ht : t.WellFormed) (hdirectory : t.hasDirectory at_ = true) {p : String} (hp : p ∈ paths)
    (directory : Location) (workingDirectory : String) :
    ∃ location, t.locate directory p = .ok location ∧ t.hasFile location = true ∧
      PathText.absolute workingDirectory p = PathText.rooted location := by
  obtain ⟨way, location, ⟨pattern, -, expanded, -, hfinds⟩, -, rfl⟩ := (h.mem_iff p).mp hp
  have hlocate := hfinds.locate_eq ht hdirectory directory
  have habsolute := hfinds.absolute_eq ht hdirectory workingDirectory
  obtain ⟨relative, parsed, -, -, hfile, -⟩ := hfinds
  exact ⟨location, hlocate, hfile, habsolute⟩

/-- Without steps up, a discovered path is the path of the file. -/
theorem eq_rooted (h : Discovered d t (PathText.rooted at_) at_ paths complaints)
    (ht : t.WellFormed) (hdirectory : t.hasDirectory at_ = true)
    (hstraight : d.IsStraight (PathText.rooted at_)) {p : String} (hp : p ∈ paths)
    {directory location : Location} (hlocate : t.locate directory p = .ok location) :
    p = PathText.rooted location := by
  obtain ⟨way, location', ⟨pattern, hpattern, expanded, hexpanded, hfinds⟩, -, rfl⟩ :=
    (h.mem_iff p).mp hp
  obtain rfl := Except.ok.inj (hlocate.symm.trans (hfinds.locate_eq ht hdirectory directory))
  rw [hfinds.fullPath_eq ht hdirectory,
    hfinds.eq_append (hstraight pattern hpattern expanded hexpanded)]

end Discovered

/-- Discovery answers if the include patterns are answered and what they find can be judged. -/
theorem exists_outcome_of_ways (hroot : openRoot w path = .ok (top, at_))
    {found : List (List (List String))}
    (hfound : d.includePatterns.mapM (waysOfPattern w.files top at_) = .ok found)
    (hjudged : ∀ way ∈ found.flatten, ∃ kept, d.keeps top way = .ok kept) :
    ∃ paths complaints, outcome (d.discover w path) [] = (.ok paths, complaints) := by
  have hselect := select_eq_ok_iff.mpr ⟨hjudged, rfl⟩
  obtain ⟨after, hafter, -⟩ := gives_discover d hroot []
  rw [bind_eq_ok_iff.mpr ⟨found, hfound, hselect⟩] at hafter
  exact ⟨_, after, hafter⟩

/-- The answer of discovery, if the patterns find the kept files in order already. -/
theorem outcome_discover_of_sorted (hroot : openRoot w path = .ok (top, at_))
    {found : List (List (List String))}
    (hfound : d.includePatterns.mapM (waysOfPattern w.files top at_) = .ok found)
    (hjudged : ∀ way ∈ found.flatten, ∃ kept, d.keeps top way = .ok kept)
    (hkept :
      (found.flatten.eraseDups.filter (passes (d.keeps top))).map (Glob.fullPath top) = paths)
    (hsorted : paths.Pairwise (· ≤ ·)) :
    outcome (d.discover w path) [] = (.ok paths, complaintsOf w.files top at_ d) := by
  have hsame := List.mergeSort_of_pairwise (hsorted.imp decide_eq_true)
  have hselect : d.select top found.flatten = .ok paths :=
    select_eq_ok_iff.mpr ⟨hjudged, by rw [hkept, hsame]⟩
  have hanswer : (do
      let found ← d.includePatterns.mapM (waysOfPattern w.files top at_)
      d.select top found.flatten) = .ok paths := bind_eq_ok_iff.mpr ⟨found, hfound, hselect⟩
  obtain ⟨after, hafter, hnotes⟩ := gives_discover d hroot []
  rw [hafter, hnotes _ hanswer]
  exact Prod.ext hanswer rfl

end Discovered

end Discovery

end DesignTokens
