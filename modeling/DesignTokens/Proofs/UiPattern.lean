import DesignTokens.Proofs.Pattern.Lines
import DesignTokens.Proofs.Token.Merging
import DesignTokens.Proofs.Token.Tables
import DesignTokens.Proofs.Token.Tally
import DesignTokens.Scan.Scanner

/-!
# Structural patterns in files

A signature takes what stands in one line, so its matches in a file are those in the lines. The
results of the files are put into a table by name; there a signature that matches in some file has
one row, with its matches in all lines of all files and the paths of the files that have one.
-/

namespace DesignTokens

namespace Signature

variable {sig : Signature} {content : String}

/-- How many matches a signature has in the lines of a text, in each line by itself. -/
def usesIn (sig : Signature) (content : String) : Int :=
  sumOf ((Text.splitOn '\n' content.toList).map fun line =>
    ((sig.pattern.findAll line).length : Int))

/-- Whether a signature matches somewhere in a text. -/
def occursIn (sig : Signature) (content : String) : Bool :=
  sig.pattern.occursIn content.toList

/-- A signature stays in one line, and takes something of it. -/
theorem isWithin_standard : ∀ sig ∈ standard,
    sig.pattern.IsWithin '\n' ∧ sig.pattern.nullable = false := by
  have hform : ∀ sig ∈ standard, (sig.pattern.avoids '\n' && !sig.pattern.asksForEnd &&
      !sig.pattern.nullable) = true := by
    decide
  intro sig hsig
  have h := hform sig hsig
  simp only [Bool.and_eq_true, Bool.not_eq_true'] at h
  exact ⟨⟨h.1.1, h.1.2⟩, h.2⟩

/-- Every standard signature takes some text. -/
theorem isTaking_of_mem_standard (hsig : sig ∈ standard) : sig.pattern.IsTaking :=
  Pattern.isTaking_of_nullable (isWithin_standard sig hsig).2

/-- The standard signatures have different names. -/
theorem nodup_name_standard : (standard.map name).Nodup := by
  decide

/-- The matches in the lines are those in the text. -/
theorem usesIn_eq_length (hsig : sig ∈ standard) (content : String) :
    sig.usesIn content = ((sig.pattern.findAll content.toList).length : Int) := by
  have hlines := congrArg List.length ((isTaking_of_mem_standard hsig).texts_findAll_splitOn
    (isWithin_standard sig hsig).1 content.toList)
  rw [Pattern.length_texts] at hlines
  rw [hlines, ← sumOf_map_length, usesIn]
  simp only [Pattern.length_texts]

/-- A signature has matches in a text exactly if it matches somewhere in it. -/
theorem usesIn_eq_zero_iff (hsig : sig ∈ standard) :
    sig.usesIn content = 0 ↔ sig.occursIn content = false := by
  have hfound := (isTaking_of_mem_standard hsig).findAll_ne_nil_iff content.toList
  rw [usesIn_eq_length hsig, occursIn, ← Bool.not_eq_true, ← hfound, ne_eq, not_not,
    ← List.length_eq_zero_iff]
  omega

end Signature

namespace UiPattern

variable {sig : Signature} {files : List (String × String)} {r s : UiPattern}

/-- What a file shows of a signature that matches in it. -/
def ofFile (sig : Signature) (file : String × String) : UiPattern :=
  ⟨sig.name, sig.usesIn file.2, [file.1], sig.complexity, []⟩

/-- A file shows the signatures that match in it. -/
theorem detect_eq (content path : String) : detect content path =
    (Signature.standard.filter (·.occursIn content)).map fun sig => ofFile sig (path, content) := by
  unfold detect
  rw [← List.filterMap_eq_map, List.filterMap_filter]
  refine List.filterMap_congr fun sig hsig => ?_
  have hzero : sig.usesIn content = 0 ↔ sig.occursIn content = false :=
    Signature.usesIn_eq_zero_iff hsig
  have hlength := Signature.usesIn_eq_length hsig content
  split
  next hnone =>
    rw [hzero.mp (by rw [hlength, hnone]; rfl)]
    rfl
  next hsome =>
    have hoccurs : sig.occursIn content = true := by
      rw [← Bool.not_eq_false, ← hzero, hlength]
      exact fun h => hsome (Int.ofNat_eq_zero.mp h)
    rw [if_pos hoccurs, Function.comp_apply, ofFile, hlength]

/-- The names of what is seen in files, one file after the other. -/
def namesSeen (files : List (String × String)) : List String :=
  files.flatMap fun file => (Signature.standard.filter (·.occursIn file.2)).map (·.name)

/-- The results have the names that are seen in the files, in that order. -/
theorem map_name_patternsIn (files : List (String × String)) :
    (Scanner.patternsIn files).map (·.name) = namesSeen files := by
  unfold Scanner.patternsIn namesSeen
  rw [List.map_flatMap]
  simp only [detect_eq, List.map_map]
  rfl

/-- Only signatures are seen. -/
theorem exists_of_mem_namesSeen {n : String} (h : n ∈ namesSeen files) :
    ∃ sig ∈ Signature.standard, sig.name = n := by
  simp only [namesSeen, List.mem_flatMap, List.mem_map, List.mem_filter] at h
  obtain ⟨-, -, sig, ⟨hsig, -⟩, hname⟩ := h
  exact ⟨sig, hsig, hname⟩

/-- A name is seen if its signature occurs in a file. -/
theorem mem_namesSeen_iff (hsig : sig ∈ Signature.standard) :
    sig.name ∈ namesSeen files ↔ ∃ file ∈ files, sig.occursIn file.2 = true := by
  simp only [namesSeen, List.mem_flatMap, List.mem_map, List.mem_filter]
  constructor
  · rintro ⟨file, hfile, sig', ⟨hsig', hoccurs⟩, hname⟩
    obtain rfl := List.inj_on_of_nodup_map Signature.nodup_name_standard hsig' hsig hname
    exact ⟨file, hfile, hoccurs⟩
  · rintro ⟨file, hfile, hoccurs⟩
    exact ⟨file, hfile, sig, ⟨hsig, hoccurs⟩, rfl⟩

/-- What is seen of a signature is seen in the files in which it matches. -/
theorem filter_name_patternsIn (hsig : sig ∈ Signature.standard) (files : List (String × String)) :
    (Scanner.patternsIn files).filter (·.name == sig.name) =
      (files.filter (sig.occursIn ·.2)).map (ofFile sig) := by
  have hone : ∀ file : String × String, (detect file.2 file.1).filter (·.name == sig.name) =
      if sig.occursIn file.2 then [ofFile sig file] else [] := by
    intro file
    -- No two signatures have one name, so this is the one that the file shows or nothing.
    have hnames : (Signature.standard.filter fun sig' => sig'.name == sig.name) = [sig] :=
      filter_key_eq_singleton Signature.nodup_name_standard hsig
    rw [detect_eq, List.filter_map]
    show ((Signature.standard.filter (·.occursIn file.2)).filter
      fun sig' => sig'.name == sig.name).map (ofFile · file) = _
    rw [List.filter_comm, hnames, List.filter_singleton]
    cases sig.occursIn file.2 <;> rfl
  unfold Scanner.patternsIn
  induction files with
  | nil => rfl
  | cons file files ih =>
    rw [List.flatMap_cons, List.filter_append, ih, hone, List.filter_cons]
    split <;> rfl

/-! ## One result after another -/

/-- What a result becomes by a further one of the same name. -/
def extend (r more : UiPattern) : UiPattern :=
  { r with
    count := r.count + more.count
    locations := more.locations.foldl Usage.listFile r.locations }

/-- A result as the first of its name: it lists no location twice. -/
def opening (r : UiPattern) : UiPattern := { r with locations := r.locations.eraseDups }

theorem name_merge (n : String) (group : List UiPattern) : (merge n group).name = n := rfl

/-- The first result of a name opens its row. -/
theorem merge_singleton (r : UiPattern) : merge r.name [r] = r.opening := by
  simp [merge, opening]

/-- A result more extends the merged one. -/
theorem merge_concat {name : String} {group : List UiPattern} (h : group ≠ []) (r : UiPattern) :
    merge name (group ++ [r]) = (merge name group).extend r := by
  obtain ⟨first, rest, rfl⟩ := List.exists_cons_of_ne_nil h
  unfold merge extend
  rw [Usage.foldl_listFile_flatMap UiPattern.locations _ r, sumOf_map_concat]
  rfl

/-- Merging is putting one result after another into an empty table, and sorting it. -/
theorem aggregate_eq_foldl (found : List UiPattern) :
    aggregate found = sortByCount count (found.foldl (enterRow name name opening extend) []) := by
  have hfold : found.foldl (enterRow name name opening extend) [] = tableOf name merge found :=
    foldl_enterRow name_merge merge_singleton (fun _ _ r h => merge_concat h r) found
  rw [hfold]
  rfl

/-! ## Surveys -/

/-- The total of a signature in files: its matches in all lines, the paths of the files that have
one, and the complexity of the signature, however often it is used. -/
structure IsTotal (sig : Signature) (files : List (String × String)) (r : UiPattern) : Prop where
  name : r.name = sig.name
  count : r.count = sumOf (files.map fun file => sig.usesIn file.2)
  locations : r.locations = ((files.filter (sig.occursIn ·.2)).map (·.1)).eraseDups
  complexity : r.complexity = sig.complexity
  dependencies : r.dependencies = []

/-- Results that are the totals of the signatures in files. -/
structure IsSurvey (files : List (String × String)) (rs : List UiPattern) : Prop where
  /-- No signature has two results. -/
  nodup : (rs.map (·.name)).Nodup
  /-- The signatures that have a result are those that match in some file. -/
  mem_names : ∀ sig ∈ Signature.standard,
    sig.name ∈ rs.map (·.name) ↔ ∃ file ∈ files, sig.occursIn file.2 = true
  /-- A result is the total of a signature. -/
  total : ∀ r ∈ rs, ∃ sig ∈ Signature.standard, IsTotal sig files r
  /-- The most used come first, and of those that are used equally often the first seen. -/
  ordered : rs.Pairwise fun r s => s.count < r.count ∨
    s.count = r.count ∧ (namesSeen files).idxOf r.name < (namesSeen files).idxOf s.name

/-- A file without a match adds nothing to the total. -/
theorem sumOf_usesIn_filter (hsig : sig ∈ Signature.standard) (files : List (String × String)) :
    sumOf ((files.filter (sig.occursIn ·.2)).map fun file => sig.usesIn file.2) =
      sumOf (files.map fun file => sig.usesIn file.2) := by
  induction files with
  | nil => rfl
  | cons file files ih =>
    rw [List.filter_cons, List.map_cons, sumOf_cons, ← ih]
    split
    next => rfl
    next hnone =>
      rw [(Signature.usesIn_eq_zero_iff hsig).mpr (Bool.not_eq_true _ ▸ hnone), Int.zero_add]

/-- What is seen of a signature that matches in some file comes to its total. -/
theorem isTotal_merge (hsig : sig ∈ Signature.standard)
    (hoccurs : ∃ file ∈ files, sig.occursIn file.2 = true) :
    IsTotal sig files
      (merge sig.name ((Scanner.patternsIn files).filter (·.name == sig.name))) := by
  rw [filter_name_patternsIn hsig]
  obtain ⟨first, rest, hfirst⟩ : ∃ first rest, files.filter (sig.occursIn ·.2) = first :: rest := by
    obtain ⟨file, hfile⟩ := hoccurs
    exact List.exists_cons_of_ne_nil (List.ne_nil_of_mem (List.mem_filter.mpr hfile))
  refine ⟨rfl, ?_, ?_, ?_, ?_⟩
  · rw [← sumOf_usesIn_filter hsig, merge, List.map_map]
    rfl
  · have hpaths : ((files.filter (sig.occursIn ·.2)).map (ofFile sig)).flatMap (·.locations) =
        (files.filter (sig.occursIn ·.2)).map (·.1) := by
      rw [List.flatMap_map]
      exact List.map_eq_flatMap.symm
    exact congrArg List.eraseDups hpaths
  · rw [merge, hfirst]
    rfl
  · rw [merge, hfirst]
    rfl

/-- The total of a signature is one result. -/
theorem IsTotal.eq (hr : IsTotal sig files r) (hs : IsTotal sig files s) : r = s := by
  obtain ⟨hname, hcount, hlocations, hcomplexity, hdependencies⟩ := hr
  obtain ⟨hname', hcount', hlocations', hcomplexity', hdependencies'⟩ := hs
  cases r
  cases s
  simp_all

/-- The merged results for files are their survey, and nothing else is. -/
theorem aggregate_patternsIn_eq_iff (files : List (String × String)) (rs : List UiPattern) :
    aggregate (Scanner.patternsIn files) = rs ↔ IsSurvey files rs := by
  have hranking : aggregate (Scanner.patternsIn files) = rs ↔
      IsRanking count name (namesSeen files)
        (fun n => merge n ((Scanner.patternsIn files).filter (·.name == n))) rs := by
    rw [← map_name_patternsIn, ← sortByCount_eq_iff fun n => name_merge n _, ← tableOf_eq]
    rfl
  refine hranking.trans ⟨fun h => ?_, fun h => ?_⟩
  · have hnames : ∀ sig ∈ Signature.standard,
        sig.name ∈ rs.map (·.name) ↔ ∃ file ∈ files, sig.occursIn file.2 = true :=
      fun sig hsig => (h.mem_labels sig.name).trans (mem_namesSeen_iff hsig)
    refine ⟨h.nodup, hnames, fun r hr => ?_, h.ordered⟩
    obtain ⟨sig, hsig, hname⟩ :=
      exists_of_mem_namesSeen ((h.mem_labels r.name).mp (List.mem_map_of_mem hr))
    have htotal := isTotal_merge hsig
      ((hnames sig hsig).mp (hname ▸ List.mem_map_of_mem hr))
    rw [hname, ← h.row_eq r hr] at htotal
    exact ⟨sig, hsig, htotal⟩
  · refine ⟨h.nodup, fun n => ⟨fun hn => ?_, fun hn => ?_⟩, fun r hr => ?_, h.ordered⟩
    · obtain ⟨r, hr, rfl⟩ := List.mem_map.mp hn
      obtain ⟨sig, hsig, htotal⟩ := h.total r hr
      rw [htotal.name] at hn ⊢
      exact (mem_namesSeen_iff hsig).mpr ((h.mem_names sig hsig).mp hn)
    · obtain ⟨sig, hsig, rfl⟩ := exists_of_mem_namesSeen hn
      exact (h.mem_names sig hsig).mpr ((mem_namesSeen_iff hsig).mp hn)
    · obtain ⟨sig, hsig, htotal⟩ := h.total r hr
      have hoccurs := (h.mem_names sig hsig).mp (htotal.name ▸ List.mem_map_of_mem hr)
      rw [htotal.name]
      exact htotal.eq (isTotal_merge hsig hoccurs)

end UiPattern

end DesignTokens
