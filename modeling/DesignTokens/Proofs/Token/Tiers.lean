import DesignTokens.Proofs.Token.Levels
import DesignTokens.Proofs.Token.Tally

/-!
# Tiers of merged usages

A token may be put into different tiers in different files, for the rules look at the path of the
file. Merging keeps one category for all usages of a token, that of the first. So the merged usages
are counted as the usages are when each of them takes the tier of the first one of its token, and
the totals are those of the single usages exactly where as much leaves each tier as arrives there.
-/

namespace DesignTokens

namespace Usage

/-- A usage that a search of some file finds, judged by a categorizer. -/
def IsFound (c : Categorizer) (u : Usage) : Prop :=
  ∃ formats content path contextLength us,
    inFile formats content path contextLength (some c) = .ok us ∧ u ∈ us

/-- The first of the usages of the same token and format. -/
def first (us : List Usage) (u : Usage) : Usage := (us.find? fun v => v.key == u.key).getD u

/-- The usages, each of them with the category of the first one of its token and format. -/
def settled (us : List Usage) : List Usage :=
  us.map fun u => { u with category := (first us u).category }

/-- The tally of usages with levels to count by. -/
def counted (us : List Usage) : Tally :=
  us.foldl (fun t u => Tally.bump u.tier u.totalCount t) Tally.tiers

/-- The usage counted for a tier. -/
def amountIn (tier : Value) (us : List Usage) : Int :=
  sumOf (us.map fun u => if u.tier.sameKey tier = true then u.totalCount else 0)

/-- The usage of a tier that counts for another one when the first usage of the token decides. -/
def leaving (tier : Value) (us : List Usage) : Int :=
  sumOf (us.map fun u =>
    if u.tier.sameKey tier = true ∧ (first us u).tier.sameKey tier = false then u.totalCount
    else 0)

/-- The usage of other tiers that counts for a tier when the first usage of the token decides. -/
def arriving (tier : Value) (us : List Usage) : Int :=
  sumOf (us.map fun u =>
    if u.tier.sameKey tier = false ∧ (first us u).tier.sameKey tier = true then u.totalCount
    else 0)

/-- Answers that are the same table, or the same failure. -/
def SameAnswer : Except Failure Tally → Except Failure Tally → Prop
  | .ok t, .ok t' => t.Same t'
  | .error e, .error e' => e = e'
  | _, _ => False

/-- What merging does to the totals of the tiers. -/
structure IsCountedByFirst (c : Categorizer) (us : List Usage) : Prop where
  /-- The totals are those of the usages with the categories of the first ones. -/
  settled : SameAnswer (tierTotals (aggregate us)) (tierTotals (settled us))
  /-- Where the single usages are counted, so are the merged ones, and the totals are the same if
  and only if every tier gets what it loses; the sum is the same in any case. -/
  balanced : ∀ single, tierTotals us = .ok single →
    ∃ merged, tierTotals (aggregate us) = .ok merged ∧ merged.sum = single.sum ∧
      (merged.Same single ↔ ∀ tier, leaving tier us = arriving tier us)
  /-- The usages of a token that is defined stay in their tier. -/
  defined : ∀ u ∈ us, ∀ d, c.dictionary.find u.tokenName = .ok (some d) →
    (first us u).tier = u.tier
  /-- With levels to count by the single usages are counted. -/
  total : c.IsCounting → ∃ single, tierTotals us = .ok single

variable {c : Categorizer} {us : List Usage} {u : Usage}

section Found

theorem IsFound.exists_category (h : u.IsFound c) : 0 < u.totalCount ∧
    ∃ path category, c.categorize u.tokenName (some path) = .ok category ∧
      u.category = some category := by
  obtain ⟨formats, content, path, contextLength, us, hus, hu⟩ := h
  obtain ⟨found, hfound, hflat⟩ := bind_eq_ok_iff.mp hus
  obtain rfl := Except.ok.inj hflat
  obtain ⟨us, hmem, hu⟩ := List.mem_flatten.mp hu
  obtain ⟨f, -, hf⟩ := (mem_iff_of_mapM hfound).mp hmem
  obtain ⟨g, hg, hgathers⟩ := exists_of_mem_forall₂ (TokenFormat.forall₂_gathers hf) hu
  obtain ⟨category, hcategory, htold⟩ := hgathers.category c rfl
  refine ⟨?_, path, category, hcategory, htold⟩
  rw [hgathers.totalCount]
  have hpos := List.length_pos_of_ne_nil (of_mem_groupByKey hg).1
  omega

theorem IsFound.isKey_tier (hc : c.IsCounting) (h : u.IsFound c) : u.tier.isKey = true := by
  obtain ⟨formats, content, path, contextLength, us, hus, hu⟩ := h
  exact isKey_tier_of_inFile hc hus u hu

/-- The category of a token that is defined does not depend on the file. -/
theorem IsFound.category_eq {v : Usage} {d : Definition} (hu : u.IsFound c) (hv : v.IsFound c)
    (hname : v.tokenName = u.tokenName) (hd : c.dictionary.find u.tokenName = .ok (some d)) :
    v.category = u.category := by
  obtain ⟨-, path, category, hcategory, htold⟩ := hu.exists_category
  obtain ⟨-, path', category', hcategory', htold'⟩ := hv.exists_category
  rw [Categorizer.categorize_of_find hd] at hcategory
  rw [hname, Categorizer.categorize_of_find hd, hcategory] at hcategory'
  rw [htold, htold', Except.ok.inj hcategory']

end Found

section Counting

/-- The usages are counted one after another, unless one of them has no level to count by. -/
theorem tierTotals_eq (us : List Usage) :
    tierTotals us = if ∀ u ∈ us, u.tier.isKey = true then .ok (counted us)
      else .error .wrongKind := by
  have hfold : ∀ before : Tally, us.foldlM (fun t u => t.add u.tier u.totalCount) before =
      if ∀ u ∈ us, u.tier.isKey = true then
        .ok (us.foldl (fun t u => Tally.bump u.tier u.totalCount t) before)
      else .error .wrongKind := by
    induction us with
    | nil => exact fun before => (if_pos fun _ h => nomatch h).symm
    | cons u us ih =>
      intro before
      rw [List.foldlM_cons, Tally.add]
      cases hu : u.tier.isKey with
      | true =>
        simp only [if_true, List.forall_mem_cons, hu, true_and, List.foldl_cons]
        exact ih _
      | false => simp [hu, bind, Except.bind]
  exact hfold Tally.tiers

theorem has_counted (us : List Usage) (tier : Value) :
    (counted us).has tier = (Tally.tiers.has tier || us.any fun u => u.tier.sameKey tier) := by
  have hfold : ∀ before : Tally,
      (us.foldl (fun t u => Tally.bump u.tier u.totalCount t) before).has tier =
        (before.has tier || us.any fun u => u.tier.sameKey tier) := by
    induction us with
    | nil => simp
    | cons u us ih =>
      intro before
      rw [List.foldl_cons, ih, Tally.has_bump, List.any_cons, Bool.or_assoc]
  exact hfold Tally.tiers

/-- The total of a tier is the usage counted for it, whatever the order. -/
theorem total_counted (us : List Usage) (tier : Value) :
    (counted us).total tier = Tally.tiers.total tier + amountIn tier us := by
  have hfold : ∀ before : Tally,
      (us.foldl (fun t u => Tally.bump u.tier u.totalCount t) before).total tier =
        before.total tier + amountIn tier us := by
    induction us with
    | nil => simp [amountIn]
    | cons u us ih =>
      intro before
      rw [List.foldl_cons, ih, Tally.total_bump]
      simp only [amountIn, List.map_cons, sumOf_cons]
      omega
  exact hfold Tally.tiers

/-- A tier has usages if and only if something is counted for it. -/
theorem any_tier_iff (hpos : ∀ u ∈ us, 0 < u.totalCount) (tier : Value) :
    (us.any fun u => u.tier.sameKey tier) = true ↔ 0 < amountIn tier us := by
  have hamount : 0 ≤ amountIn tier us ∧
      ((us.any fun u => u.tier.sameKey tier) = true ↔ 0 < amountIn tier us) := by
    induction us with
    | nil => simp [amountIn]
    | cons u us ih =>
      obtain ⟨hu, hrest⟩ := List.forall_mem_cons.mp hpos
      obtain ⟨hnonneg, hiff⟩ := ih hrest
      simp only [amountIn, List.map_cons, sumOf_cons, List.any_cons, Bool.or_eq_true] at *
      split
      next hsame => exact ⟨by omega, iff_of_true (.inl hsame) (by omega)⟩
      next hother =>
        rw [Int.zero_add, or_iff_right hother]
        exact ⟨hnonneg, hiff⟩
  exact hamount.2

end Counting

section Merging

/-- A group of usages is merged under the tier of its first one. -/
theorem tier_merge {g : (String × String) × List Usage} (hg : g ∈ groupByKey key us)
    (hu : u ∈ g.2) : (merge g.1 g.2).tier = (first us u).tier := by
  obtain ⟨token, -, rfl⟩ := List.mem_map.mp hg
  have hkey : u.key = token := beq_iff_eq.mp (List.mem_filter.mp hu).2
  unfold tier first merge
  dsimp only
  rw [hkey, List.head?_filter]
  cases hfind : us.find? fun v => v.key == token with
  | some v => rfl
  | none =>
    have hnone := List.find?_eq_none.mp hfind u (List.mem_filter.mp hu).1
    exact absurd (beq_iff_eq.mpr hkey) hnone

/-- The tiers of the merged usages are those of the first ones. -/
theorem exists_tier_aggregate_iff (us : List Usage) (p : Value → Prop) :
    (∃ u ∈ aggregate us, p u.tier) ↔ ∃ u ∈ settled us, p u.tier := by
  constructor
  · rintro ⟨u, hu, hp⟩
    obtain ⟨g, hg, rfl⟩ := List.mem_map.mp ((perm_aggregate us).mem_iff.mp hu)
    obtain ⟨hne, hmem⟩ := of_mem_groupByKey hg
    obtain ⟨v, hv⟩ := List.exists_mem_of_ne_nil _ hne
    rw [tier_merge hg hv] at hp
    exact ⟨_, List.mem_map_of_mem (hmem v hv).2, hp⟩
  · rintro ⟨u, hu, hp⟩
    obtain ⟨v, hv, rfl⟩ := List.mem_map.mp hu
    obtain ⟨g, hg, hvg⟩ := List.mem_flatMap.mp ((perm_groupByKey key us).mem_iff.mpr hv)
    refine ⟨merge g.1 g.2, (perm_aggregate us).mem_iff.mpr (List.mem_map_of_mem hg), ?_⟩
    rw [tier_merge hg hvg]
    exact hp

/-- What is counted for a tier is the same for the merged usages as for those with the categories
of the first ones. -/
theorem amountIn_aggregate (us : List Usage) (tier : Value) :
    amountIn tier (aggregate us) = amountIn tier (settled us) := by
  let amount (u : Usage) : Int :=
    if (first us u).tier.sameKey tier = true then u.totalCount else 0
  have hgroup : ∀ g ∈ groupByKey key us,
      (if (merge g.1 g.2).tier.sameKey tier = true then (merge g.1 g.2).totalCount else 0) =
        sumOf (g.2.map amount) := by
    intro g hg
    have hsame : g.2.map amount = g.2.map fun u =>
        if (merge g.1 g.2).tier.sameKey tier = true then u.totalCount else 0 :=
      List.map_congr_left fun u hu => by rw [tier_merge hg hu]
    rw [hsame]
    split
    · rfl
    · rw [sumOf_map_zero]
  calc amountIn tier (aggregate us)
      = amountIn tier ((groupByKey key us).map fun g => merge g.1 g.2) :=
        sumOf_perm ((perm_aggregate us).map _)
    _ = sumOf ((groupByKey key us).map fun g => sumOf (g.2.map amount)) := by
        unfold amountIn
        rw [List.map_map]
        exact congrArg sumOf (List.map_congr_left hgroup)
    _ = sumOf (((groupByKey key us).flatMap (·.2)).map amount) :=
        (sumOf_map_flatMap Prod.snd amount _).symm
    _ = sumOf (us.map amount) := sumOf_perm ((perm_groupByKey key us).map amount)
    _ = amountIn tier (settled us) := by
        unfold amountIn settled
        rw [List.map_map]
        rfl

/-- What is counted for a tier changes by what leaves it and what arrives there. -/
theorem amountIn_settled (us : List Usage) (tier : Value) :
    amountIn tier (settled us) + leaving tier us = amountIn tier us + arriving tier us := by
  unfold amountIn settled leaving arriving
  rw [List.map_map, ← sumOf_map_add, ← sumOf_map_add]
  refine congrArg sumOf (List.map_congr_left fun u _ => ?_)
  have hfirst : Usage.tier { u with category := (first us u).category } = (first us u).tier := rfl
  simp only [Function.comp_apply, hfirst]
  cases u.tier.sameKey tier <;> cases (first us u).tier.sameKey tier <;> simp

/-- Merging keeps the sum of all counts. -/
theorem sum_totalCount_aggregate (us : List Usage) :
    sumOf ((aggregate us).map (·.totalCount)) = sumOf (us.map (·.totalCount)) := by
  calc sumOf ((aggregate us).map (·.totalCount))
      = sumOf (((groupByKey key us).map fun g => merge g.1 g.2).map (·.totalCount)) :=
        sumOf_perm ((perm_aggregate us).map _)
    _ = sumOf (((groupByKey key us).flatMap fun g => g.2).map (·.totalCount)) := by
        rw [sumOf_map_flatMap, List.map_map]
        rfl
    _ = sumOf (us.map (·.totalCount)) := sumOf_perm ((perm_groupByKey key us).map _)

/-- The first usage of a token is one of its usages. -/
theorem first_mem (hu : u ∈ us) : first us u ∈ us ∧ (first us u).key = u.key := by
  unfold first
  cases hfind : us.find? fun v => v.key == u.key with
  | none => exact ⟨hu, rfl⟩
  | some v =>
    have hkey := List.find?_some hfind
    exact ⟨List.mem_of_find?_eq_some hfind, beq_iff_eq.mp hkey⟩

theorem any_tier_aggregate (us : List Usage) (tier : Value) :
    ((aggregate us).any fun u => u.tier.sameKey tier) =
      (settled us).any fun u => u.tier.sameKey tier := by
  rw [Bool.eq_iff_iff, List.any_eq_true, List.any_eq_true]
  exact exists_tier_aggregate_iff us fun t => t.sameKey tier = true

theorem isKey_tier_aggregate_iff (us : List Usage) :
    (∀ u ∈ aggregate us, u.tier.isKey = true) ↔ ∀ u ∈ settled us, u.tier.isKey = true := by
  have hnone := not_congr (exists_tier_aggregate_iff us fun t => ¬t.isKey = true)
  simpa only [not_exists, not_and, not_not] using hnone

/-- Where usages that are found can be counted, so can any of them. A defined token has the tier of
its definition in every file, and any other one is judged by the rules. -/
theorem exists_tierTotals_of_subset {us' : List Usage} {tiers : Tally}
    (hrules : ∀ rule ∈ c.rules, ∀ token path, (rule.classify token path).tier.isKey = true)
    (hfound : ∀ u ∈ us, u.IsFound c) (hsub : us' ⊆ us)
    (h : tierTotals (aggregate us) = .ok tiers) :
    ∃ tiers', tierTotals (aggregate us') = .ok tiers' := by
  have hcounted : ∀ u ∈ settled us, u.tier.isKey = true := by
    rw [← isKey_tier_aggregate_iff]
    by_contra hnone
    rw [tierTotals_eq, if_neg hnone] at h
    cases h
  apply exists_tierTotals
  rw [isKey_tier_aggregate_iff]
  intro u hu
  obtain ⟨v, hv, rfl⟩ := List.mem_map.mp hu
  have hfirst := hsub (first_mem hv).1
  obtain ⟨-, path, category, hcategory, htold⟩ := (hfound _ hfirst).exists_category
  cases hknown : c.dictionary.find (first us' v).tokenName with
  | error e =>
    unfold Categorizer.categorize at hcategory
    rw [hknown] at hcategory
    cases hcategory
  | ok answer =>
    cases answer with
    | none =>
      rw [Categorizer.categorize_of_find_none hknown] at hcategory
      unfold tier
      dsimp only
      rw [htold, ← Except.ok.inj hcategory]
      exact Categorizer.isKey_tier_judged hrules _ _
    | some d =>
      obtain ⟨hmem, hkey⟩ := first_mem hfirst
      have hname : (first us (first us' v)).tokenName = (first us' v).tokenName :=
        congrArg Prod.fst hkey
      have hsame := (hfound _ hfirst).category_eq (hfound _ hmem) hname hknown
      have hmerged := hcounted _ (List.mem_map_of_mem hfirst)
      rwa [hsame] at hmerged

/-- The merged usages are counted as those with the categories of the first ones. -/
theorem sameAnswer_settled (us : List Usage) :
    SameAnswer (tierTotals (aggregate us)) (tierTotals (settled us)) := by
  rw [tierTotals_eq, tierTotals_eq]
  simp only [isKey_tier_aggregate_iff]
  split
  · intro tier
    rw [has_counted, has_counted, any_tier_aggregate, total_counted, total_counted,
      amountIn_aggregate]
    exact ⟨rfl, rfl⟩
  · rfl

/-- The totals are the same if and only if every tier gets what it loses. -/
theorem same_counted_iff (hpos : ∀ u ∈ us, 0 < u.totalCount) :
    (counted (aggregate us)).Same (counted us) ↔ ∀ tier, leaving tier us = arriving tier us := by
  refine forall_congr' fun tier => ?_
  have hchange := amountIn_settled us tier
  rw [has_counted, has_counted, any_tier_aggregate, total_counted, total_counted,
    amountIn_aggregate]
  constructor
  · rintro ⟨-, htotal⟩
    omega
  · intro hbalance
    have hamount : amountIn tier (settled us) = amountIn tier us := by omega
    have hpos' : ∀ u ∈ settled us, 0 < u.totalCount := by
      intro u hu
      obtain ⟨v, hv, rfl⟩ := List.mem_map.mp hu
      exact hpos v hv
    have hany : ((settled us).any fun u => u.tier.sameKey tier) =
        us.any fun u => u.tier.sameKey tier := by
      rw [Bool.eq_iff_iff, any_tier_iff hpos', any_tier_iff hpos, hamount]
    exact ⟨by rw [hany], by rw [hamount]⟩

end Merging

/-- Merged usages are counted for the tier of the first usage of their token. So the totals of the
tiers are those of the single usages exactly where every tier gets what it loses. -/
theorem isCountedByFirst_of_isFound (h : ∀ u ∈ us, u.IsFound c) : IsCountedByFirst c us where
  settled := sameAnswer_settled us
  balanced := by
    intro single hsingle
    rw [tierTotals_eq] at hsingle
    split at hsingle
    next hkeys =>
      have hmerged : tierTotals (aggregate us) = .ok (counted (aggregate us)) := by
        rw [tierTotals_eq]
        exact if_pos (isKey_tier_of_mem_aggregate hkeys)
      refine ⟨counted (aggregate us), hmerged, ?_, ?_⟩
      · have hsum : tierTotals us = .ok single := by
          rw [tierTotals_eq, if_pos hkeys]
          exact hsingle
        rw [sum_tierTotals hmerged, sum_tierTotals hsum, sum_totalCount_aggregate]
      · obtain rfl := Except.ok.inj hsingle
        exact same_counted_iff fun u hu => (h u hu).exists_category.1
    next => cases hsingle
  defined := by
    intro u hu d hd
    obtain ⟨hmem, hkey⟩ := first_mem hu
    have hname : (first us u).tokenName = u.tokenName := congrArg Prod.fst hkey
    unfold tier
    rw [(h u hu).category_eq (h _ hmem) hname hd]
  total hc := exists_tierTotals fun u hu => (h u hu).isKey_tier hc

/-- The file of a component and one of the foundation, each with a reference to the same token. -/
def referencing : List (String × String) :=
  [("b.css", "p\x7bcolor:var(--x)\x7d"), ("foundation/a.css", "p\x7bcolor:var(--x)\x7d")]

/-- The usages in these files. -/
def scattered : List Usage :=
  referencing.flatMap fun file =>
    ((inFile TokenFormat.general file.2 file.1 Occurrence.defaultContext
      (some Categorizer.standard)).toOption).getD []

theorem isFound_scattered : ∀ u ∈ scattered, u.IsFound Categorizer.standard := by
  intro u hu
  obtain ⟨file, -, hu⟩ := List.mem_flatMap.mp hu
  cases hfile : inFile TokenFormat.general file.2 file.1 Occurrence.defaultContext
      (some Categorizer.standard) with
  | error e =>
    rw [hfile] at hu
    cases hu
  | ok us =>
    rw [hfile] at hu
    exact ⟨_, _, _, _, us, hfile, hu⟩

theorem isCountedByFirst_scattered :
    (∀ u ∈ scattered, u.IsFound Categorizer.standard) ∧
      IsCountedByFirst Categorizer.standard scattered :=
  ⟨isFound_scattered, isCountedByFirst_of_isFound isFound_scattered⟩

/-- Merging does not keep the totals of the tiers: the reference in the file of the foundation is
counted for the components, since the file of the component comes first. -/
theorem not_forall_sameAnswer : ¬∀ {c : Categorizer} {us : List Usage}, (∀ u ∈ us, u.IsFound c) →
    SameAnswer (tierTotals (aggregate us)) (tierTotals us) := by
  intro hkeeps
  have hsame := hkeeps isFound_scattered
  have hkeys : ∀ u ∈ scattered, u.tier.isKey = true := by decide +kernel
  rw [tierTotals_eq, tierTotals_eq, if_pos hkeys, if_pos (isKey_tier_of_mem_aggregate hkeys)]
    at hsame
  have htotal := (hsame (.text "foundation")).2
  exact absurd htotal (by decide +kernel)

end Usage

end DesignTokens
