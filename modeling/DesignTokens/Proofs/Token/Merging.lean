import DesignTokens.Proofs.Token.Tables

/-!
# Merged usages

Usages are merged one after another into a table: each one extends the entry of its token and
format, or begins a new entry at the end. The table holds the total of each token in the order in
which the tokens are first seen, and sorting it by count keeps that order where counts are equal.
What is said about the result here leaves no choice: only one list has these properties.
-/

namespace DesignTokens

namespace Usage

/-- The usages of a token and format. -/
def ofToken (us : List Usage) (token : String × String) : List Usage :=
  us.filter fun u => u.key == token

/-- One usage for each token and format, in the order in which they are first seen. -/
def merged (us : List Usage) : List Usage := (groupByKey key us).map fun g => merge g.1 g.2

variable {us group : List Usage} {u r s : Usage} {token : String × String}

/-- A merged usage has the token of its group. -/
@[simp] theorem key_merge : (merge token group).key = token := rfl

/-- Each token has one merged usage, in the order in which they are first seen. -/
theorem merged_eq (us : List Usage) :
    merged us = (us.map key).eraseDups.map fun token => merge token (ofToken us token) :=
  tableOf_eq key merge us

/-- The tokens are those of the usages, each of them once. -/
theorem map_key_merged (us : List Usage) : (merged us).map key = (us.map key).eraseDups :=
  map_label_tableOf (fun _ _ => rfl) us

/-- The tokens of the results are those of the usages, each once. -/
theorem perm_map_key_aggregate (us : List Usage) :
    ((aggregate us).map key).Perm (us.map key).eraseDups := by
  rw [← map_key_merged]
  exact (perm_aggregate us).map key

/-! ## One usage after another -/

/-- Lists a file unless it is listed already. -/
def listFile (files : List String) (file : String) : List String :=
  if files.contains file then files else files ++ [file]

/-- What the usage of a token becomes by a further one. -/
def extend (u more : Usage) : Usage :=
  { u with
    occurrences := u.occurrences ++ more.occurrences
    totalCount := u.totalCount + more.totalCount
    files := more.files.foldl listFile u.files }

/-- A usage as the first of its token: it lists no file twice. -/
def opening (u : Usage) : Usage := { u with files := u.files.eraseDups }

/-- Puts a further usage into a table: it extends the entry of its token or becomes a new one. -/
def enter (table : List Usage) (u : Usage) : List Usage :=
  if (table.map key).contains u.key then
    table.map fun entry => if entry.key == u.key then entry.extend u else entry
  else table ++ [u.opening]

/-- Files that are listed one after another are there once, at their first place. -/
theorem foldl_listFile (files more : List String) :
    more.foldl listFile files.eraseDups = (files ++ more).eraseDups := by
  induction more generalizing files with
  | nil => simp
  | cons file more ih =>
    have hstep : listFile files.eraseDups file = (files ++ [file]).eraseDups := by
      simp [listFile, eraseDups_concat]
    rw [List.foldl_cons, hstep, ih, List.append_assoc, List.singleton_append]

/-- What items list is listed by listing what a further item lists. -/
theorem foldl_listFile_flatMap {α : Type} (f : α → List String) (xs : List α) (x : α) :
    (f x).foldl listFile (xs.flatMap f).eraseDups = ((xs ++ [x]).flatMap f).eraseDups := by
  rw [foldl_listFile, List.flatMap_append, List.flatMap_singleton]

/-- A usage more extends the merged one. -/
theorem merge_concat (h : group ≠ []) (u : Usage) :
    merge token (group ++ [u]) = (merge token group).extend u := by
  obtain ⟨first, rest, rfl⟩ := List.exists_cons_of_ne_nil h
  unfold merge extend
  rw [foldl_listFile_flatMap Usage.files _ u, sumOf_map_concat, List.flatMap_append,
    List.flatMap_singleton]
  rfl

/-- The first usage of a token opens its result. -/
theorem merge_singleton (u : Usage) : merge u.key [u] = u.opening := by
  simp [merge, opening, key]

/-- A further usage changes the table by its entry alone. -/
theorem merged_concat (us : List Usage) (u : Usage) :
    merged (us ++ [u]) = enter (merged us) u := by
  have hkey : ∀ token group, (merge token group).key = token := fun _ _ => key_merge
  exact tableOf_concat hkey merge_singleton (fun _ _ u h => merge_concat h u) us u

/-- Merging is putting one usage after another into an empty table. -/
theorem foldl_enter (us : List Usage) : us.foldl enter [] = merged us := by
  have hkey : ∀ token group, (merge token group).key = token := fun _ _ => key_merge
  exact foldl_enterRow hkey merge_singleton (fun _ _ u h => merge_concat h u) us

/-- Merging is putting one usage after another into an empty table, and sorting it. -/
theorem aggregate_eq_foldl (us : List Usage) :
    aggregate us = sortByCount totalCount (us.foldl enter []) := by
  rw [foldl_enter]
  rfl

/-! ## Grouped sums -/

/-- A usage that is the total of a group: counts are added, occurrences follow each other, a file
is listed at its first place, and the category is that of the first of the group. -/
structure IsTotal (group : List Usage) (u : Usage) : Prop where
  totalCount : u.totalCount = sumOf (group.map (·.totalCount))
  occurrences : u.occurrences = group.flatMap (·.occurrences)
  files : u.files = (group.flatMap (·.files)).eraseDups
  category : group.head?.map (·.category) = some u.category

/-- Results that are the totals of usages by token and format. -/
structure IsGroupedSum (us rs : List Usage) : Prop where
  /-- No token has two results. -/
  nodup : (rs.map key).Nodup
  /-- The tokens that have a result are those of the usages. -/
  mem_keys : ∀ token, token ∈ rs.map key ↔ token ∈ us.map key
  /-- A result is the total of the usages of its token. -/
  total : ∀ r ∈ rs, IsTotal (ofToken us r.key) r
  /-- The most used come first, and of those that are used equally often the first seen. -/
  ordered : rs.Pairwise fun r s => s.totalCount < r.totalCount ∨
    s.totalCount = r.totalCount ∧ (us.map key).idxOf r.key < (us.map key).idxOf s.key

/-- A merged group is its total. -/
theorem isTotal_merge (h : group ≠ []) : IsTotal group (merge token group) := by
  obtain ⟨first, rest, rfl⟩ := List.exists_cons_of_ne_nil h
  exact ⟨rfl, rfl, rfl, rfl⟩

/-- The total of a group is determined by its token. -/
theorem IsTotal.eq (hr : IsTotal group r) (hs : IsTotal group s) (hkey : r.key = s.key) :
    r = s := by
  obtain ⟨name, type⟩ := Prod.mk.inj hkey
  have hcount := hr.totalCount.trans hs.totalCount.symm
  have hoccurrences := hr.occurrences.trans hs.occurrences.symm
  have hfiles := hr.files.trans hs.files.symm
  have hcategory := Option.some.inj (hr.category.symm.trans hs.category)
  cases r
  cases s
  simp_all

/-- The totals in their order are the rows of the tokens, the greatest count first. -/
theorem isGroupedSum_iff_isRanking {rs : List Usage} : IsGroupedSum us rs ↔
    IsRanking totalCount key (us.map key) (fun token => merge token (ofToken us token)) rs := by
  have htotal : ∀ token ∈ us.map key, IsTotal (ofToken us token) (merge token (ofToken us token)) :=
    fun _ htoken => isTotal_merge (filter_key_ne_nil htoken)
  constructor
  · intro h
    refine ⟨h.nodup, h.mem_keys, fun r hr => ?_, h.ordered⟩
    exact (h.total r hr).eq (htotal _ ((h.mem_keys _).mp (List.mem_map_of_mem hr))) rfl
  · intro h
    refine ⟨h.nodup, h.mem_labels, fun r hr => ?_, h.ordered⟩
    have hrow := htotal _ ((h.mem_labels _).mp (List.mem_map_of_mem hr))
    rwa [← h.row_eq r hr] at hrow

/-- The results are the totals of the usages by token and format. -/
theorem isGroupedSum_aggregate (us : List Usage) : IsGroupedSum us (aggregate us) := by
  rw [isGroupedSum_iff_isRanking, aggregate_eq_foldl, foldl_enter, merged_eq]
  exact isRanking_sortByCount (fun _ => rfl) (us.map key)

/-- The totals of usages by token and format, in their order, are one list. -/
theorem IsGroupedSum.unique {rs ss : List Usage} (hr : IsGroupedSum us rs)
    (hs : IsGroupedSum us ss) : rs = ss :=
  (isGroupedSum_iff_isRanking.mp hr).unique (isGroupedSum_iff_isRanking.mp hs)

/-- Merging gives the totals of the usages by token and format, sorted by count with the first seen
first, and nothing else does. -/
theorem aggregate_eq_iff (us rs : List Usage) : aggregate us = rs ↔ IsGroupedSum us rs := by
  constructor
  · rintro rfl
    exact isGroupedSum_aggregate us
  · exact (isGroupedSum_aggregate us).unique

end Usage

end DesignTokens
