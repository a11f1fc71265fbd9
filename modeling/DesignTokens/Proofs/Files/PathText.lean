import DesignTokens.Files.PathText
import DesignTokens.Proofs.Lists
import DesignTokens.Proofs.Text.Lines
import Mathlib.Data.List.Basic

/-!
# Paths of locations

A location has one path from the root without detours, `rooted`. Segments of such a path are the
names of the location, a path appended to it goes on from the location, its normal form takes the
detours out of it, and the path relative to a directory tells locations apart.
-/

namespace DesignTokens.PathText

/-- What can stand between two slashes and names something: a text that is not empty. -/
def IsSegment (s : String) : Prop := s ≠ "" ∧ '/' ∉ s.toList

/-- A segment that is the name of a file or a directory, and not a step in place or above. -/
def IsProper (s : String) : Prop := IsSegment s ∧ s ≠ "." ∧ s ≠ ".."

/-- The path from the root with these segments. -/
def rooted (names : List String) : String := "/" ++ join names

section Join

variable {parts : List String}

/-- The characters of joined parts are those of the parts with slashes between. -/
theorem toList_join (parts : List String) :
    (join parts).toList = Text.joinWith ['/'] (parts.map String.toList) := by
  unfold join
  induction parts with
  | nil => rfl
  | cons first parts ih =>
    cases parts with
    | nil => simp only [String.intercalate_singleton, List.map_cons, List.map_nil, Text.joinWith]
    | cons second more =>
      rw [String.intercalate_cons_cons, String.toList_append, String.toList_append, ih]
      simp only [List.map_cons, Text.joinWith]
      rfl

/-- A segment begins with a character that is no slash. -/
theorem IsSegment.exists_cons {s : String} (h : IsSegment s) :
    ∃ c cs, s.toList = c :: cs ∧ c ≠ '/' := by
  obtain ⟨c, cs, hc⟩ :=
    List.exists_cons_of_ne_nil fun hnil => h.1 (String.toList_eq_nil_iff.mp hnil)
  refine ⟨c, cs, hc, ?_⟩
  rintro rfl
  exact h.2 (hc ▸ List.mem_cons_self)

/-- Joined segments do not begin with a slash. -/
theorem head?_join_ne (h : ∀ s ∈ parts, IsSegment s) : (join parts).toList.head? ≠ some '/' := by
  cases parts with
  | nil => decide
  | cons first more =>
    obtain ⟨c, cs, hc, hslash⟩ := (h first List.mem_cons_self).exists_cons
    obtain ⟨rest, hrest⟩ :=
      Text.exists_joinWith_eq_append ['/'] first.toList (more.map String.toList)
    rw [toList_join, List.map_cons, hrest, hc, List.cons_append, List.head?_cons]
    exact fun heq => hslash (Option.some.inj heq)

private theorem map_ofList_toList (parts : List String) :
    (parts.map String.toList).map String.ofList = parts := by
  rw [List.map_map]
  exact (List.map_congr_left fun s _ => String.ofList_toList).trans (List.map_id parts)

/-- The segments of joined parts are the parts. -/
theorem segments_join (hne : parts ≠ []) (h : ∀ s ∈ parts, '/' ∉ s.toList) :
    segments (join parts) = parts := by
  unfold segments Text.fieldsOf
  rw [toList_join, Text.splitOn_joinWith (by simpa using hne), map_ofList_toList]
  intro field hfield
  obtain ⟨s, hs, rfl⟩ := List.mem_map.mp hfield
  exact h s hs

/-- Joined proper names are cut at their slashes into the same names. -/
theorem plainSegments_join (hne : parts ≠ []) (h : ∀ s ∈ parts, IsProper s) :
    plainSegments (join parts) = parts := by
  unfold plainSegments
  rw [segments_join hne fun s hs => (h s hs).1.2, List.filter_eq_self]
  intro s hs
  simp [(h s hs).1.1, (h s hs).2.1]

/-- Names without slashes can be told from what they are joined to. -/
theorem join_injective {others : List String} (hne : parts ≠ []) (hne' : others ≠ [])
    (h : ∀ s ∈ parts, '/' ∉ s.toList) (h' : ∀ s ∈ others, '/' ∉ s.toList)
    (heq : join parts = join others) : parts = others := by
  rw [← segments_join hne h, heq, segments_join hne' h']

end Join

section Characters

variable {path : String} {c : Char}

/-- The characters of a segment are characters of the path. -/
theorem mem_of_mem_segments {segment : String} (hsegment : segment ∈ segments path)
    (hc : c ∈ segment.toList) : c ∈ path.toList := by
  obtain ⟨field, hfield, rfl⟩ := List.mem_map.mp hsegment
  rw [String.toList_ofList] at hc
  exact Text.mem_of_mem_splitOn hfield hc

/-- What stands in the stem of a path stands in the path. -/
theorem mem_of_mem_stem (h : c ∈ (stem path).toList) : c ∈ path.toList := by
  have hname : ∀ d ∈ ((plainSegments path).getLast?.getD "").toList, d ∈ path.toList := by
    intro d hd
    cases hlast : (plainSegments path).getLast? with
    | none =>
      rw [hlast] at hd
      cases hd
    | some name =>
      rw [hlast] at hd
      exact mem_of_mem_segments (List.mem_of_mem_filter (List.mem_of_getLast? hlast)) hd
  unfold stem at h
  dsimp only at h
  split at h
  · exact hname c h
  · rename_i before hdrop
    split at h
    · exact hname c h
    · rw [String.toList_ofList, List.mem_reverse] at h
      have hmem := List.mem_of_mem_drop (hdrop ▸ List.mem_cons_of_mem _ h)
      exact hname c (List.mem_reverse.mp hmem)

end Characters

section Parent

/-- A path has no slash, or is cut around the slashes before its last name. -/
theorem exists_cut (path : String) :
    '/' ∉ path.toList ∨ ∃ kept slashes last : List Char, path.toList = kept ++ slashes ++ last ∧
      kept.getLast? ≠ some '/' ∧ (∀ c ∈ slashes, c = '/') ∧ slashes ≠ [] ∧ '/' ∉ last := by
  obtain ⟨before, last, hpath, hlast, hbefore⟩ := exists_run (· ≠ '/') path.toList
  have hnone : '/' ∉ last := fun hmem => hlast '/' hmem rfl
  obtain ⟨kept, slashes, rfl, hslashes, hkept⟩ := exists_run (· = '/') before
  by_cases hne : slashes = []
  · subst hne
    rw [List.append_nil] at hpath hbefore
    cases kept using List.reverseRecOn with
    | nil => exact .inl (hpath ▸ hnone)
    | append_singleton kept c =>
      exact absurd (not_not.mp (hbefore c List.getLast?_concat)) (hkept c List.getLast?_concat)
  · exact .inr ⟨kept, slashes, last, hpath, fun h => hkept '/' h rfl, hslashes, hne, hnone⟩

/-- A path without slashes has nothing above it. -/
theorem parent_eq_empty {path : String} (h : '/' ∉ path.toList) : parent path = "" := by
  have hchars : path.toList.reverse.dropWhile (· ≠ '/') = [] := by
    rw [List.dropWhile_eq_nil_iff]
    exact fun c hc => decide_eq_true fun heq => h (heq ▸ List.mem_reverse.mp hc)
  unfold parent
  rw [hchars]
  rfl

/-- The parent of a path is what is kept before the slashes before its last name, or those slashes
if nothing else is before it. -/
theorem parent_of_cut {path : String} {kept slashes last : List Char}
    (hpath : path.toList = kept ++ slashes ++ last) (hkept : kept.getLast? ≠ some '/')
    (hslashes : ∀ c ∈ slashes, c = '/') (hne : slashes ≠ []) (hlast : '/' ∉ last) :
    parent path = String.ofList (if kept = [] then slashes else kept) := by
  have hname : ∀ c ∈ last.reverse, decide (c ≠ '/') = true :=
    fun c hc => decide_eq_true fun heq => hlast (heq ▸ List.mem_reverse.mp hc)
  have hup : path.toList.reverse.dropWhile (· ≠ '/') = slashes.reverse ++ kept.reverse := by
    rw [hpath, List.reverse_append, List.reverse_append, List.dropWhile_append_of_pos hname]
    cases slashes using List.reverseRecOn with
    | nil => exact absurd rfl hne
    | append_singleton slashes c =>
      obtain rfl := hslashes c (List.mem_append_right _ List.mem_cons_self)
      rw [List.reverse_append]
      rfl
  have hrest : (slashes.reverse ++ kept.reverse).dropWhile (· = '/') = kept.reverse := by
    rw [List.dropWhile_append_of_pos fun c hc =>
      decide_eq_true (hslashes c (List.mem_reverse.mp hc))]
    cases kept using List.reverseRecOn with
    | nil => rfl
    | append_singleton kept c =>
      rw [List.getLast?_concat] at hkept
      rw [List.reverse_append]
      exact List.dropWhile_cons_of_neg (by simpa using hkept)
  unfold parent
  simp only [hup, hrest]
  cases kept using List.reverseRecOn with
  | nil => simp
  | append_singleton kept c => simp

/-- The path above the last name of a path is that of its parent, or of the parent of that. -/
theorem fst_cut_eq (path : String) :
    (if baseName path = "" then (parent (parent path), baseName (parent path))
      else (parent path, baseName path)).1 = parent path ∨
    (if baseName path = "" then (parent (parent path), baseName (parent path))
      else (parent path, baseName path)).1 = parent (parent path) := by
  split
  · exact .inr rfl
  · exact .inl rfl

end Parent

section Rooted

variable {names : List String}

/-- A path from the root is a slash and the joined names. -/
theorem toList_rooted (names : List String) :
    (rooted names).toList = '/' :: (join names).toList := by
  unfold rooted
  rw [String.toList_append]
  rfl

/-- The segments of a path from the root are nothing and then its names. -/
theorem segments_rooted (hne : names ≠ []) (h : ∀ s ∈ names, '/' ∉ s.toList) :
    segments (rooted names) = "" :: names := by
  have hcut :
      Text.splitOn '/' (rooted names).toList = [] :: Text.splitOn '/' (join names).toList := by
    rw [toList_rooted, Text.splitOn_cons_self]
  have hjoin := segments_join hne h
  unfold segments Text.fieldsOf at hjoin ⊢
  rw [hcut, List.map_cons, hjoin]

theorem segments_rooted_nil : segments (rooted []) = ["", ""] := by decide

/-- A path from the root is absolute. -/
theorem isAbsolute_rooted (names : List String) : isAbsolute (rooted names) = true := by
  unfold isAbsolute
  rw [toList_rooted]
  rfl

/-- A path from the root is not empty. -/
theorem rooted_ne_empty (names : List String) : rooted names ≠ "" := by
  intro h
  have hlist := toList_rooted names
  rw [h] at hlist
  cases hlist

/-- A path that begins with one slash starts at the root. -/
theorem root_eq_slash {path : String} {rest : List Char} (h : path.toList = '/' :: rest)
    (hrest : rest.head? ≠ some '/') : root path = "/" := by
  unfold root
  rw [h]
  cases rest with
  | nil => rfl
  | cons c cs =>
    have hc : c ≠ '/' := by
      rintro rfl
      exact hrest rfl
    split
    · rename_i heq
      cases heq
      exact absurd rfl hc
    · rename_i heq
      cases heq
      exact absurd rfl hc
    · rfl
    · rename_i hnone
      exact absurd rfl (hnone (c :: cs))

/-- The root of the path of a location is one slash. -/
theorem root_rooted (h : ∀ s ∈ names, IsSegment s) : root (rooted names) = "/" :=
  root_eq_slash (toList_rooted names) (head?_join_ne h)

/-- The segments that are not empty are the names. -/
theorem filter_segments_rooted (h : ∀ s ∈ names, IsSegment s) :
    (segments (rooted names)).filter (· ≠ "") = names := by
  by_cases hne : names = []
  · subst hne
    decide
  · rw [segments_rooted hne fun s hs => (h s hs).2, List.filter_cons_of_neg (by decide),
      List.filter_eq_self]
    exact fun s hs => decide_eq_true (h s hs).1

/-- Two paths from the root are the same only if their names are. -/
theorem rooted_injective {others : List String} (h : ∀ s ∈ names, IsSegment s)
    (h' : ∀ s ∈ others, IsSegment s) (heq : rooted names = rooted others) : names = others := by
  rw [← filter_segments_rooted h, heq, filter_segments_rooted h']

/-- Proper names can be read off a path from the root. -/
theorem plainSegments_rooted (h : ∀ s ∈ names, IsProper s) :
    plainSegments (rooted names) = names := by
  have hfilter : plainSegments (rooted names) =
      ((segments (rooted names)).filter (· ≠ "")).filter (· ≠ ".") := by
    unfold plainSegments
    rw [List.filter_filter]
    refine List.filter_congr fun s _ => ?_
    rw [Bool.and_comm]
  rw [hfilter, filter_segments_rooted fun s hs => (h s hs).1, List.filter_eq_self]
  exact fun s hs => decide_eq_true (h s hs).2.1

/-- The path of a location other than the root does not end with a slash. -/
theorem getLast?_rooted_ne (h : ∀ s ∈ names, IsSegment s) (hne : names ≠ []) :
    (rooted names).toList.getLast? ≠ some '/' := by
  obtain ⟨before, last, rfl⟩ := (List.eq_nil_or_concat names).resolve_left hne
  rw [List.concat_eq_append] at h ⊢
  obtain ⟨hlast, hslash⟩ := h last (List.mem_append_right before List.mem_cons_self)
  have hend : ∃ start, (rooted (before ++ [last])).toList = start ++ last.toList := by
    rw [toList_rooted]
    unfold join
    by_cases hbefore : before = []
    · subst hbefore
      exact ⟨['/'], by rw [List.nil_append, String.intercalate_singleton]; rfl⟩
    · rw [String.intercalate_append_of_ne_nil hbefore (List.cons_ne_nil last []),
        String.intercalate_singleton, String.toList_append]
      exact ⟨_, List.cons_append.symm⟩
  obtain ⟨start, hstart⟩ := hend
  rw [hstart, List.getLast?_append_of_ne_nil start fun hnil =>
    hlast (String.toList_eq_nil_iff.mp hnil)]
  exact fun heq => hslash (List.mem_of_getLast? heq)

/-- What a relative path appended to the path of a location looks like. -/
theorem append_rooted_of_relative {path : String} (h : ∀ s ∈ names, IsSegment s)
    (hpath : isAbsolute path = false) :
    append (rooted names) path =
      if names = [] then "/" ++ path else rooted names ++ "/" ++ path := by
  unfold append
  rw [hpath, if_neg (by decide)]
  by_cases hroot : names = []
  · subst hroot
    rfl
  · have hopen : (decide (rooted names = "") ||
        decide ((rooted names).toList.getLast? = some '/')) = false :=
      Bool.or_eq_false_iff.mpr ⟨decide_eq_false (rooted_ne_empty names),
        decide_eq_false (getLast?_rooted_ne h hroot)⟩
    rw [hopen, if_neg (by decide), if_neg hroot]

/-- A way appended to the path of a location goes on from there. -/
theorem append_rooted {way : List String} (h : ∀ s ∈ names, IsSegment s) (hne : way ≠ [])
    (hway : ∀ s ∈ way, IsSegment s) : append (rooted names) (join way) = rooted (names ++ way) := by
  rw [append_rooted_of_relative h (decide_eq_false (head?_join_ne hway))]
  by_cases hroot : names = []
  · subst hroot
    rfl
  · rw [if_neg hroot]
    unfold rooted join
    rw [String.intercalate_append_of_ne_nil hroot hne]
    simp only [String.append_assoc]

/-- A name appended to the path of a location. -/
theorem append_rooted_name {name : String} (h : ∀ s ∈ names, IsSegment s) (hname : IsSegment name) :
    append (rooted names) name = rooted (names ++ [name]) := by
  have hjoin : join [name] = name := String.intercalate_singleton
  rw [← append_rooted h (List.cons_ne_nil _ _) (List.forall_mem_singleton.mpr hname), hjoin]

/-- A segment is a relative path. -/
theorem IsSegment.isAbsolute_eq {s : String} (h : IsSegment s) : isAbsolute s = false := by
  obtain ⟨c, more, hchars, hc⟩ := h.exists_cons
  unfold isAbsolute
  rw [hchars]
  exact decide_eq_false fun heq => hc (Option.some.inj heq)

/-- The text before the last slash of a path below a location is the path of the location. -/
theorem parent_rooted_concat {name : String} (h : ∀ s ∈ names, IsSegment s)
    (hname : IsSegment name) : parent (rooted (names ++ [name])) = rooted names := by
  have hpath := append_rooted_of_relative h hname.isAbsolute_eq
  rw [append_rooted_name h hname] at hpath
  have hslash : ∀ c ∈ ['/'], c = '/' := fun c hc => List.mem_singleton.mp hc
  by_cases hne : names = []
  · subst hne
    have hcut : (rooted [name]).toList = [] ++ ['/'] ++ name.toList := by
      rw [show rooted [name] = "/" ++ name from hpath, String.toList_append]
      rfl
    exact parent_of_cut hcut (by decide) hslash (by decide) hname.2
  · rw [if_neg hne] at hpath
    have hcut : (rooted (names ++ [name])).toList =
        (rooted names).toList ++ ['/'] ++ name.toList := by
      rw [hpath, String.toList_append, String.toList_append]
      rfl
    have hkept : (rooted names).toList ≠ [] := by
      rw [toList_rooted]
      exact List.cons_ne_nil _ _
    have hparent :=
      parent_of_cut hcut (getLast?_rooted_ne h hne) hslash (by decide) hname.2
    rw [hparent, if_neg hkept, String.ofList_toList]

end Rooted

section Step

variable {done names : List String}

/-- A proper name is a step down. -/
theorem step_of_isProper {s : String} (h : IsProper s) (rooted : Bool) (done : List String) :
    step rooted done s = s :: done := by
  simp [step, h.1.1, h.2.1, h.2.2]

/-- Proper names are all kept. -/
theorem foldl_step_of_isProper (h : ∀ s ∈ names, IsProper s) (rooted : Bool)
    (done : List String) : names.foldl (step rooted) done = names.reverse ++ done := by
  induction names generalizing done with
  | nil => rfl
  | cons s names ih =>
    rw [List.foldl_cons, step_of_isProper (h s List.mem_cons_self),
      ih fun t ht => h t (List.mem_cons_of_mem s ht), List.reverse_cons, List.append_assoc]
    rfl

/-- From the root, only proper names are kept. -/
theorem isProper_foldl_step (hdone : ∀ s ∈ done, IsProper s) (h : ∀ s ∈ names, '/' ∉ s.toList) :
    ∀ s ∈ names.foldl (step true) done, IsProper s := by
  induction names generalizing done with
  | nil => exact hdone
  | cons name names ih =>
    refine ih ?_ fun t ht => h t (List.mem_cons_of_mem name ht)
    unfold step
    split
    · exact hdone
    · rename_i hname
      simp only [Bool.or_eq_true, decide_eq_true_eq, not_or] at hname
      split
      · cases done with
        | nil => exact fun s hs => absurd hs (List.not_mem_nil)
        | cons last rest =>
          have hlast := (hdone last List.mem_cons_self).2.2
          simp only [if_neg hlast]
          exact fun s hs => hdone s (List.mem_cons_of_mem last hs)
      · rename_i habove
        intro s hs
        rcases List.mem_cons.mp hs with rfl | hs
        · exact ⟨⟨hname.1, h s List.mem_cons_self⟩, hname.2, habove⟩
        · exact hdone s hs

/-- The normal form of a path from the root is the path of what its segments lead to. -/
theorem normalize_rooted (h : ∀ s ∈ names, IsSegment s) :
    normalize (rooted names) = rooted (names.foldl (step true) []).reverse := by
  have hskip : (segments (rooted names)).foldl (step true) [] = names.foldl (step true) [] := by
    by_cases hne : names = []
    · subst hne
      decide
    · rw [segments_rooted hne fun s hs => (h s hs).2]
      rfl
  unfold normalize
  rw [root_rooted h]
  simp only [ne_eq, String.reduceEq, not_false_eq_true, decide_true, hskip, decide_false,
    Bool.false_and, Bool.false_eq_true, if_false]
  rfl

/-- A path from the root is made absolute by its own steps alone, wherever the run works. -/
theorem absolute_rooted (h : ∀ s ∈ names, IsSegment s) (workingDirectory : String) :
    absolute workingDirectory (rooted names) = rooted (names.foldl (step true) []).reverse := by
  unfold absolute
  rw [if_pos (isAbsolute_rooted names), normalize_rooted h]

/-- A path from the root with proper names is absolute as it is. -/
theorem absolute_rooted_of_isProper (h : ∀ s ∈ names, IsProper s) (workingDirectory : String) :
    absolute workingDirectory (rooted names) = rooted names := by
  rw [absolute_rooted (fun s hs => (h s hs).1), foldl_step_of_isProper h, List.append_nil,
    List.reverse_reverse]

end Step

section Relative

/-- What is left after the common names is the end of each path. -/
theorem suffix_afterCommon (base xs : List String) :
    (afterCommon base xs).1 <:+ base ∧ (afterCommon base xs).2 <:+ xs := by
  fun_induction afterCommon base xs with
  | case1 =>
    rename_i ih
    exact ⟨ih.1.trans (List.suffix_cons _ _), ih.2.trans (List.suffix_cons _ _)⟩
  | case2 => exact ⟨List.suffix_rfl, List.suffix_rfl⟩
  | case3 => exact ⟨List.suffix_rfl, List.suffix_rfl⟩

/-- The way from a list to another: a step above for each element that is left of the first one,
then what is left of the other one. -/
def wayTo (base xs : List String) : List String :=
  (afterCommon base xs).1.map (fun _ => "..") ++ (afterCommon base xs).2

/-- A way has a step above for each name of its start that is not shared. -/
private theorem count_wayTo (base : List String) {xs : List String} (hx : ".." ∉ xs) :
    (wayTo base xs).count ".." = (afterCommon base xs).1.length := by
  have hdown : ".." ∉ (afterCommon base xs).2 :=
    fun hmem => hx ((suffix_afterCommon base xs).2.mem hmem)
  rw [wayTo, List.count_append, List.count_eq_zero_of_not_mem hdown, List.map_const',
    List.count_replicate_self, Nat.add_zero]

/-- A list that begins like the start is not reached like one that does not. -/
private theorem ne_wayTo_of_head? {first : String} {base xs ys : List String}
    (hx : ".." ∉ first :: xs) (hy : ".." ∉ ys) (hfirst : ys.head? ≠ some first) :
    wayTo (first :: base) (first :: xs) ≠ wayTo (first :: base) ys := by
  intro heq
  -- The steps up at the beginning of a way tell how much of the first list is not shared.
  have hcount := count_wayTo (first :: base) hx
  rw [heq, count_wayTo _ hy] at hcount
  have hleft : (afterCommon (first :: base) ys).1 = first :: base := by
    cases ys with
    | nil => rfl
    | cons y ys =>
      have hne : first ≠ y := fun he => hfirst (congrArg some he.symm)
      rw [afterCommon, if_neg hne]
  have hshort := (suffix_afterCommon base xs).1.length_le
  rw [hleft, afterCommon, if_pos rfl, List.length_cons] at hcount
  omega

/-- The ways from one list to two others tell them apart. -/
theorem wayTo_injective {base xs ys : List String} (hx : ".." ∉ xs) (hy : ".." ∉ ys)
    (h : wayTo base xs = wayTo base ys) : xs = ys := by
  induction base generalizing xs ys with
  | nil => simpa [wayTo, afterCommon] using h
  | cons first base ih =>
    by_cases hxs : xs.head? = some first
    · obtain ⟨xs, rfl⟩ := List.head?_eq_some_iff.mp hxs
      by_cases hys : ys.head? = some first
      · obtain ⟨ys, rfl⟩ := List.head?_eq_some_iff.mp hys
        simp only [wayTo, afterCommon, if_true] at h
        rw [ih (fun hm => hx (List.mem_cons_of_mem first hm))
          (fun hm => hy (List.mem_cons_of_mem first hm)) h]
      · exact absurd h (ne_wayTo_of_head? hx hy hys)
    · by_cases hys : ys.head? = some first
      · obtain ⟨ys, rfl⟩ := List.head?_eq_some_iff.mp hys
        exact absurd h.symm (ne_wayTo_of_head? hy hx hxs)
      · have hwhole : ∀ zs : List String, zs.head? ≠ some first →
            afterCommon (first :: base) zs = (first :: base, zs) := by
          intro zs hzs
          cases zs with
          | nil => rfl
          | cons z zs => rw [afterCommon, if_neg fun he => hzs (congrArg some he.symm)]
        simp only [wayTo, hwhole xs hxs, hwhole ys hys] at h
        exact List.append_cancel_left h

variable {base names others : List String}

/-- The relative path between two locations is the way between them. -/
theorem relative_rooted (hbase : ∀ s ∈ base, IsSegment s) (h : ∀ s ∈ names, IsSegment s) :
    relative (rooted names) (rooted base) =
      if wayTo base names = [] then "." else join (wayTo base names) := by
  unfold relative wayTo
  simp only [filter_segments_rooted hbase, filter_segments_rooted h]
  rcases afterCommon base names with ⟨up, down⟩
  cases up.map (fun _ => "..") ++ down <;> rfl

/-- Each step of a way goes up or is a proper name. -/
private theorem of_mem_wayTo {s : String} (h : ∀ s ∈ names, IsProper s)
    (hs : s ∈ wayTo base names) : s = ".." ∨ IsProper s := by
  rcases List.mem_append.mp hs with hup | hdown
  · obtain ⟨_, _, rfl⟩ := List.mem_map.mp hup
    exact .inl rfl
  · exact .inr (h s ((suffix_afterCommon base names).2.mem hdown))

/-- No step of a way has a slash in it. -/
private theorem slash_notMem_wayTo (h : ∀ s ∈ names, IsProper s) :
    ∀ s ∈ wayTo base names, '/' ∉ s.toList := by
  intro s hs
  rcases of_mem_wayTo h hs with rfl | hproper
  · decide
  · exact hproper.1.2

/-- Something is left of a list that does not begin the first one. -/
theorem snd_afterCommon_ne_nil {base xs : List String} (h : ¬xs <+: base) :
    (afterCommon base xs).2 ≠ [] := by
  fun_induction afterCommon base xs with
  | case1 _ _ _ ih => exact ih fun hle => h (List.cons_prefix_cons.mpr ⟨rfl, hle⟩)
  | case2 => exact List.cons_ne_nil _ _
  | case3 =>
    rintro rfl
    exact h List.nil_prefix

/-- A path of something that is not above a directory keeps its last name relative to it. -/
theorem baseName_relative_rooted {name : String} (hbase : ∀ s ∈ base, IsSegment s)
    (h : ∀ s ∈ names ++ [name], IsProper s) (hnot : ¬names ++ [name] <+: base) :
    baseName (relative (rooted (names ++ [name])) (rooted base)) = name := by
  have hleft := snd_afterCommon_ne_nil hnot
  have hway : wayTo base (names ++ [name]) ≠ [] := List.append_ne_nil_of_right_ne_nil _ hleft
  have hlast : (wayTo base (names ++ [name])).getLast? = some name := by
    obtain ⟨before, hbefore⟩ := (suffix_afterCommon base (names ++ [name])).2
    have hwhole := List.getLast?_concat (l := names) (a := name)
    rw [← hbefore, List.getLast?_append_of_ne_nil before hleft] at hwhole
    rw [wayTo, List.getLast?_append_of_ne_nil _ hleft, hwhole]
  unfold baseName
  rw [relative_rooted hbase fun s hs => (h s hs).1, if_neg hway,
    segments_join hway (slash_notMem_wayTo h), hlast]
  rfl

/-- No way that goes anywhere is written like the way that stays. -/
private theorem join_wayTo_ne (h : ∀ s ∈ names, IsProper s) (hne : wayTo base names ≠ []) :
    join (wayTo base names) ≠ "." := by
  intro hjoin
  have hsegments := segments_join hne (slash_notMem_wayTo h)
  rw [hjoin] at hsegments
  have hmem : "." ∈ wayTo base names := hsegments ▸ List.mem_cons_self
  rcases of_mem_wayTo h hmem with habs | hproper
  · exact absurd habs (by decide)
  · exact hproper.2.1 rfl

/-- Paths relative to one directory tell locations apart. -/
theorem relative_rooted_injective (hbase : ∀ s ∈ base, IsSegment s) (h : ∀ s ∈ names, IsProper s)
    (h' : ∀ s ∈ others, IsProper s)
    (heq : relative (rooted names) (rooted base) = relative (rooted others) (rooted base)) :
    names = others := by
  have habove : ∀ {ns : List String}, (∀ s ∈ ns, IsProper s) → ".." ∉ ns :=
    fun hns hmem => (hns _ hmem).2.2 rfl
  rw [relative_rooted hbase fun s hs => (h s hs).1,
    relative_rooted hbase fun s hs => (h' s hs).1] at heq
  refine @wayTo_injective base names others (habove h) (habove h') ?_
  by_cases hnil : wayTo base names = []
  · rw [if_pos hnil] at heq
    by_cases hnil' : wayTo base others = []
    · rw [hnil, hnil']
    · rw [if_neg hnil'] at heq
      exact absurd heq.symm (join_wayTo_ne h' hnil')
  · rw [if_neg hnil] at heq
    by_cases hnil' : wayTo base others = []
    · rw [if_pos hnil'] at heq
      exact absurd heq (join_wayTo_ne h hnil)
    · rw [if_neg hnil'] at heq
      exact join_injective hnil hnil' (slash_notMem_wayTo h) (slash_notMem_wayTo h') heq

end Relative

end DesignTokens.PathText
