import DesignTokens.Proofs.Token.Merging
import DesignTokens.Proofs.Token.Tally

/-!
# Merging in stages and in any order

The entries of a table may be in any order: each further usage finds its own. So a table that was
sorted can be merged with more usages as if it had not been, and each token has the same result.
The order of the usages themselves decides which category a token has and in which order its
occurrences, its files and the tokens with equal counts are told, and nothing else.
-/

namespace DesignTokens

namespace Usage

variable {us vs rs table table' : List Usage}

/-! ## Stages -/

/-- The order of a table makes no difference to what a usage changes in it. -/
theorem enter_perm (h : table.Perm table') (u : Usage) : (enter table u).Perm (enter table' u) := by
  have hseen : (table.map key).contains u.key = (table'.map key).contains u.key := by
    rw [Bool.eq_iff_iff, List.contains_iff_mem, List.contains_iff_mem, (h.map key).mem_iff]
  unfold enter
  rw [hseen]
  split
  · exact h.map _
  · exact h.append_right _

/-- A table in another order becomes the same table, in another order. -/
theorem foldl_enter_perm (h : table.Perm table') (us : List Usage) :
    (us.foldl enter table).Perm (us.foldl enter table') := by
  induction us generalizing table table' with
  | nil => exact h
  | cons u us ih => exact ih (enter_perm h u)

/-- The first stage gives the entries that the second one starts with. -/
theorem merged_append (us vs : List Usage) : merged (us ++ vs) = vs.foldl enter (merged us) := by
  rw [← foldl_enter, ← foldl_enter, List.foldl_append]

/-- Usages of different tokens that list no file twice are merged already. -/
theorem merged_of_nodup (hkeys : (us.map key).Nodup) (hfiles : ∀ u ∈ us, u.files.Nodup) :
    merged us = us := by
  induction us using List.reverseRecOn with
  | nil => rfl
  | append_singleton us u ih =>
    rw [List.map_append, List.map_singleton] at hkeys
    have hnew : (us.map key).contains u.key = false := by
      rw [Bool.eq_false_iff, ne_eq, List.contains_iff_mem]
      exact fun hseen => List.disjoint_of_nodup_append hkeys hseen (List.mem_singleton_self _)
    have hopening : u.opening = u := by
      simp [opening, eraseDups_of_nodup (hfiles u (by simp))]
    have hus : merged us = us :=
      ih (List.nodup_append.mp hkeys).1 fun v hv => hfiles v (List.mem_append_left _ hv)
    rw [merged_concat, hus, enter, hnew, hopening]
    rfl

/-- Results of merging are not merged further. -/
theorem merged_aggregate (us : List Usage) : merged (aggregate us) = aggregate us := by
  refine merged_of_nodup (nodup_key_aggregate us) fun r hr => ?_
  rw [((isGroupedSum_aggregate us).total r hr).files]
  exact nodup_eraseDups _

/-- Merging what was merged and sorted with further usages gives the entries that all of them
give. -/
theorem perm_merged_aggregate_append (us vs : List Usage) :
    (merged (aggregate us ++ vs)).Perm (merged (us ++ vs)) := by
  rw [merged_append, merged_append, merged_aggregate]
  exact foldl_enter_perm (perm_aggregate us) vs

/-- Entries that are in the order of their counts are the result. -/
theorem aggregate_of_pairwise (h : (merged us).Pairwise fun r s => s.totalCount ≤ r.totalCount) :
    aggregate us = merged us := sortByCount_of_pairwise h

/-- The result for a token and format. -/
def resultOf? (rs : List Usage) (token : String × String) : Option Usage :=
  rs.find? fun r => r.key == token

/-- A token has a result if it is among theirs. -/
theorem isSome_resultOf? {token : String × String} :
    (resultOf? rs token).isSome = true ↔ token ∈ rs.map key := by
  simp [resultOf?]

/-- Usages can be merged in stages: each token of the usages has a result, which is the same, and
only results with equal counts may have changed places. What is merged already stays as it is. -/
theorem aggregate_staged (us vs : List Usage) :
    (∀ token, resultOf? (aggregate (aggregate us ++ vs)) token =
      resultOf? (aggregate (us ++ vs)) token) ∧
    (∀ token, (resultOf? (aggregate (us ++ vs)) token).isSome = true ↔
      token ∈ (us ++ vs).map key) ∧
    (aggregate (aggregate us ++ vs)).Perm (aggregate (us ++ vs)) ∧
    (aggregate (aggregate us ++ vs)).map totalCount = (aggregate (us ++ vs)).map totalCount ∧
    aggregate (aggregate us) = aggregate us := by
  have hentries := perm_merged_aggregate_append us vs
  have hperm : (aggregate (aggregate us ++ vs)).Perm (aggregate (us ++ vs)) :=
    (perm_aggregate _).trans (hentries.trans (perm_aggregate _).symm)
  refine ⟨fun token => ?_, fun token => ?_, hperm, ?_, ?_⟩
  · exact find?_key_of_perm hperm (nodup_key_aggregate _) token
  · rw [isSome_resultOf?, (isGroupedSum_aggregate _).mem_keys]
  · exact map_sortByCount_of_perm (hentries.map totalCount)
  · have hsorted := pairwise_aggregate us
    rw [← merged_aggregate] at hsorted
    rw [aggregate_of_pairwise hsorted, merged_aggregate]

/-! ## Order -/

/-- Results of one token with the same figures: the category and the orders may differ. -/
structure SameFigures (r s : Usage) : Prop where
  totalCount : r.totalCount = s.totalCount
  files : r.files.Perm s.files
  occurrences : r.occurrences.Perm s.occurrences

/-- Results that agree but for categories and orders. -/
structure SameResults (rs ss : List Usage) : Prop where
  /-- They are for the same tokens. -/
  keys : (rs.map key).Perm (ss.map key)
  /-- Each token has the same figures in both. -/
  figures : ∀ r ∈ rs, ∀ s ∈ ss, r.key = s.key → SameFigures r s
  /-- The counts are the same one after another. -/
  counts : rs.map totalCount = ss.map totalCount

/-- The usages of a token are the same in another order. -/
theorem perm_ofToken (h : us.Perm vs) (token : String × String) :
    (ofToken us token).Perm (ofToken vs token) := h.filter _

/-- Totals of the same usages in another order have the same figures. -/
theorem IsTotal.sameFigures {group group' : List Usage} {r s : Usage} (hr : IsTotal group r)
    (hs : IsTotal group' s) (h : group.Perm group') : SameFigures r s where
  totalCount := by
    rw [hr.totalCount, hs.totalCount]
    exact sumOf_perm (h.map _)
  files := by
    rw [hr.files, hs.files]
    exact perm_eraseDups (h.flatMap_right _)
  occurrences := by
    rw [hr.occurrences, hs.occurrences]
    exact h.flatMap_right _

/-- The merged counts are the sums of the counts of each token. -/
theorem map_totalCount_merged (us : List Usage) : (merged us).map totalCount =
    (us.map key).eraseDups.map fun token => sumOf ((ofToken us token).map (·.totalCount)) := by
  rw [merged_eq, List.map_map]
  rfl

/-- The merged counts do not depend on the order of usages. -/
theorem perm_map_totalCount_merged (h : us.Perm vs) :
    ((merged us).map totalCount).Perm ((merged vs).map totalCount) := by
  have hsum : ∀ token, sumOf ((ofToken us token).map (·.totalCount)) =
      sumOf ((ofToken vs token).map (·.totalCount)) := fun token =>
    sumOf_perm ((perm_ofToken h token).map _)
  rw [map_totalCount_merged, map_totalCount_merged]
  simp only [hsum]
  exact (perm_eraseDups (h.map key)).map _

/-- The results are for the tokens of the usages, and the order of the usages makes no difference to
the figures of any of them. -/
theorem aggregate_of_perm (h : us.Perm vs) :
    (∀ token, token ∈ (aggregate us).map key ↔ token ∈ us.map key) ∧
      SameResults (aggregate us) (aggregate vs) := by
  refine ⟨(isGroupedSum_aggregate us).mem_keys, ?_, fun r hr s hs hkey => ?_, ?_⟩
  · exact (perm_map_key_aggregate us).trans
      ((perm_eraseDups (h.map key)).trans (perm_map_key_aggregate vs).symm)
  · have hs := (isGroupedSum_aggregate vs).total s hs
    rw [← hkey] at hs
    exact ((isGroupedSum_aggregate us).total r hr).sameFigures hs (perm_ofToken h r.key)
  · exact map_sortByCount_of_perm (perm_map_totalCount_merged h)

/-- The usage of a token on lines of a stylesheet. -/
def inStylesheet (path token : String) (lines : List Nat) : Usage :=
  { tokenName := token
    tokenType := "css-variables"
    occurrences := lines.map fun line => ⟨path, line, 1, "", token, "css-variables"⟩
    totalCount := lines.length
    files := [path]
    category := none }

/-- The usages in two stylesheets that share a token. -/
def inTwoStylesheets : List Usage :=
  [inStylesheet "a.css" "--x" [1, 4], inStylesheet "b.css" "--x" [1],
    inStylesheet "a.css" "--y" [2, 3, 5]]

/-- The other way round, the usages give the same figures, but neither the same order of the tokens
nor the same order of the files. -/
theorem aggregate_of_perm_inTwoStylesheets :
    inTwoStylesheets.Perm inTwoStylesheets.reverse ∧
      SameResults (aggregate inTwoStylesheets) (aggregate inTwoStylesheets.reverse) ∧
      (aggregate inTwoStylesheets).map (fun r => (r.tokenName, r.files)) =
        [("--x", ["a.css", "b.css"]), ("--y", ["a.css"])] ∧
      (aggregate inTwoStylesheets.reverse).map (fun r => (r.tokenName, r.files)) =
        [("--y", ["a.css"]), ("--x", ["b.css", "a.css"])] := by
  have hperm := (List.reverse_perm inTwoStylesheets).symm
  refine ⟨hperm, (aggregate_of_perm hperm).2, ?_, ?_⟩
  · rw [aggregate_of_pairwise (by decide)]
    decide
  · rw [aggregate_of_pairwise (by decide)]
    decide

end Usage

end DesignTokens
