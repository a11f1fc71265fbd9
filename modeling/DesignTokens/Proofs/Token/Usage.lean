import DesignTokens.Proofs.Lists
import DesignTokens.Proofs.Token.Ranking
import Mathlib.Data.List.Perm.Lattice

/-!
# Usages and their occurrences

Grouping a list by key loses nothing and adds nothing. So the usages of a file hold the occurrences
of its formats, aggregated usages hold those of the usages they were made of, and in both the
figures of each usage are those of its occurrences.
-/

namespace DesignTokens

section Groups

variable {α κ : Type} [BEq κ] [LawfulBEq κ]

private theorem perm_flatMap_filter (key : α → κ) (xs : List α) {keys : List κ} (h : keys.Nodup) :
    (keys.flatMap fun k => xs.filter fun x => key x == k).Perm
      (xs.filter fun x => keys.contains (key x)) := by
  induction keys with
  | nil => simp
  | cons k keys ih =>
    obtain ⟨hk, hkeys⟩ := List.nodup_cons.mp h
    rw [List.flatMap_cons]
    -- What the keys allow is what has the first key, then what the others allow.
    refine ((ih hkeys).append_left _).trans ?_
    have hsplit := List.filter_append_perm (fun x => key x == k)
      (xs.filter fun x => (k :: keys).contains (key x))
    rw [List.filter_filter, List.filter_filter] at hsplit
    have hfirst : (xs.filter fun x => key x == k) =
        xs.filter fun x => key x == k && (k :: keys).contains (key x) := by
      refine List.filter_congr fun x _ => ?_
      by_cases hx : key x = k <;> simp [hx]
    have hother : (xs.filter fun x => keys.contains (key x)) =
        xs.filter fun x => !(key x == k) && (k :: keys).contains (key x) := by
      refine List.filter_congr fun x _ => ?_
      by_cases hx : key x = k
      · simp [hx, hk]
      · simp [hx]
    rw [hfirst, hother]
    exact hsplit

/-- The groups of a list are together the list. -/
theorem perm_groupByKey (key : α → κ) (xs : List α) :
    ((groupByKey key xs).flatMap (·.2)).Perm xs := by
  have hall : (xs.filter fun x => (xs.map key).eraseDups.contains (key x)) = xs := by
    rw [List.filter_eq_self]
    intro x hx
    rw [List.contains_iff_mem, List.mem_eraseDups]
    exact List.mem_map_of_mem hx
  have hgroups := perm_flatMap_filter key xs (nodup_eraseDups (xs.map key))
  rw [hall] at hgroups
  unfold groupByKey
  rw [List.flatMap_map]
  exact hgroups

/-- Each group has its key, and has items. -/
theorem of_mem_groupByKey {key : α → κ} {xs : List α} {g : κ × List α}
    (h : g ∈ groupByKey key xs) : g.2 ≠ [] ∧ ∀ x ∈ g.2, key x = g.1 ∧ x ∈ xs := by
  obtain ⟨k, hk, rfl⟩ := List.mem_map.mp h
  obtain ⟨x, hx, hkey⟩ := List.mem_map.mp (List.mem_eraseDups.mp hk)
  constructor
  · apply List.ne_nil_of_mem (a := x)
    exact List.mem_filter.mpr ⟨hx, beq_iff_eq.mpr hkey⟩
  · intro y hy
    obtain ⟨hmem, hkey⟩ := List.mem_filter.mp hy
    exact ⟨beq_iff_eq.mp hkey, hmem⟩

/-- An item is in the group of its key. -/
theorem mem_groupByKey {key : α → κ} {x : α} {xs : List α} (hx : x ∈ xs) :
    (key x, xs.filter fun y => key y == key x) ∈ groupByKey key xs :=
  List.mem_map.mpr ⟨key x, List.mem_eraseDups.mpr (List.mem_map_of_mem hx), rfl⟩

/-- The first item opens the first group; the other groups are those of the items with other
keys. -/
theorem groupByKey_cons (key : α → κ) (x : α) (xs : List α) :
    groupByKey key (x :: xs) = (key x, x :: xs.filter fun y => key y == key x) ::
      groupByKey key (xs.filter fun y => !key y == key x) := by
  unfold groupByKey
  rw [List.map_cons, List.eraseDups_cons, List.map_cons, List.filter_map]
  congr 1
  · rw [List.filter_cons, if_pos (beq_self_eq_true (key x))]
  · refine List.map_congr_left fun k hk => ?_
    obtain ⟨y, hy, rfl⟩ := List.mem_map.mp (List.mem_eraseDups.mp hk)
    have hne : key y ≠ key x := by simpa using (List.mem_filter.mp hy).2
    rw [List.filter_cons_of_neg (by simpa using hne.symm), List.filter_filter]
    refine congrArg _ (List.filter_congr fun z _ => ?_)
    by_cases hz : key z = key y
    · simp [hz, hne]
    · simp [hz]

/-- The groups are in the order of their first items. -/
theorem sublist_head?_groupByKey (key : α → κ) (xs : List α) :
    ((groupByKey key xs).filterMap (·.2.head?)).Sublist xs := by
  induction hlength : xs.length using Nat.strongRecOn generalizing xs with
  | ind n ih =>
    cases xs with
    | nil => exact .slnil
    | cons x xs =>
      have hshort := List.length_filter_le (fun y => !key y == key x) xs
      rw [List.length_cons] at hlength
      rw [groupByKey_cons, List.filterMap_cons]
      exact ((ih _ (by omega) _ rfl).trans List.filter_sublist).cons_cons x

/-- Each key has one group. -/
theorem nodup_groupByKey (key : α → κ) (xs : List α) : ((groupByKey key xs).map (·.1)).Nodup := by
  unfold groupByKey
  rw [List.map_map]
  have hkeys :
      ((fun g : κ × List α => g.1) ∘ fun k => (k, xs.filter fun x => key x == k)) = id := rfl
  rw [hkeys, List.map_id]
  exact nodup_eraseDups _

end Groups

section Sums

variable {α β : Type}

theorem sumOf_map_concat (f : α → Int) (xs : List α) (x : α) :
    sumOf ((xs ++ [x]).map f) = sumOf (xs.map f) + f x := by
  rw [List.map_append, sumOf_append, List.map_singleton, sumOf_cons, sumOf_nil, Int.add_zero]

theorem sumOf_map_length (f : α → List β) (xs : List α) :
    sumOf (xs.map fun x => ((f x).length : Int)) = ((xs.flatMap f).length : Int) := by
  induction xs with
  | nil => rfl
  | cons x xs ih =>
    rw [List.map_cons, sumOf_cons, ih, List.flatMap_cons, List.length_append]
    omega

end Sums

namespace Usage

/-- A usage whose figures are those of its occurrences. -/
structure IsExact (u : Usage) : Prop where
  counted : u.totalCount = u.occurrences.length
  located : u.files = (u.occurrences.map (·.filePath)).eraseDups

end Usage

namespace TokenFormat

variable {f : TokenFormat} {content path : String} {contextLength : Int}

/-- A match of a format in a file is noted with both. -/
theorem of_mem_matchesIn {m : String × Occurrence}
    (h : m ∈ f.matchesIn content path contextLength) :
    m.2.filePath = path ∧ m.2.formatName = f.name := by
  unfold matchesIn matchesInLine at h
  obtain ⟨l, -, hm⟩ := List.mem_flatMap.mp h
  obtain ⟨found, -, rfl⟩ := List.mem_map.mp hm
  exact ⟨rfl, rfl⟩

theorem of_mem_occurrences {o : Occurrence} (h : o ∈ f.occurrences content path contextLength) :
    o.filePath = path ∧ o.formatName = f.name := by
  obtain ⟨m, hm, rfl⟩ := List.mem_map.mp h
  exact of_mem_matchesIn hm

/-- The category that a token gets, which is none without a categorizer. -/
def categoryFor (categorizer : Option Categorizer) (path token : String) :
    Except Failure (Option Category) :=
  match categorizer with
  | none => .ok none
  | some c => (c.categorize token (some path)).map some

/-- The usage with the matches of a format under one key. -/
def usageOf (f : TokenFormat) (path : String) (g : String × List (String × Occurrence))
    (category : Option Category) : Usage :=
  { tokenName := g.1
    tokenType := f.name
    occurrences := g.2.map (·.2)
    totalCount := g.2.length
    files := [path]
    category := category }

theorem usages_eq_mapM (f : TokenFormat) (content path : String) (contextLength : Int)
    (categorizer : Option Categorizer) : f.usages content path contextLength categorizer =
      (groupByKey (·.1) (f.matchesIn content path contextLength)).mapM fun g =>
        (categoryFor categorizer path g.1).map (f.usageOf path g) := by
  unfold usages
  refine congrArg (List.mapM · _) (funext fun g => ?_)
  cases categorizer with
  | none => rfl
  | some c => exact bind_ok_eq_map _ _

/-- A format has one usage for each group of its matches. -/
theorem usages_eq_ok_iff {categorizer : Option Categorizer} {us : List Usage} :
    f.usages content path contextLength categorizer = .ok us ↔
      List.Forall₂ (fun g u => ∃ category, categoryFor categorizer path g.1 = .ok category ∧
          f.usageOf path g category = u)
        (groupByKey (·.1) (f.matchesIn content path contextLength)) us := by
  rw [usages_eq_mapM, mapM_eq_ok_iff]
  simp only [map_eq_ok_iff]

theorem exists_categoryFor_iff {categorizer : Option Categorizer} {path token : String} :
    (∃ category, categoryFor categorizer path token = .ok category) ↔
      ∀ c ∈ categorizer, ∃ category, c.categorize token (some path) = .ok category := by
  cases categorizer with
  | none => exact ⟨fun _ => nofun, fun _ => ⟨none, rfl⟩⟩
  | some c =>
    simp only [Option.mem_def, Option.some.injEq, forall_eq']
    constructor
    · rintro ⟨category, hcategory⟩
      obtain ⟨answer, hanswer, -⟩ := map_eq_ok_iff.mp hcategory
      exact ⟨answer, hanswer⟩
    · rintro ⟨category, hcategory⟩
      exact ⟨some category, map_eq_ok_iff.mpr ⟨category, hcategory, rfl⟩⟩

/-- A format has its usages if the categorizer judges the names that it finds. -/
theorem exists_usages_iff {categorizer : Option Categorizer} :
    (∃ us, f.usages content path contextLength categorizer = .ok us) ↔
      ∀ x ∈ f.matchesIn content path contextLength, ∀ c ∈ categorizer, ∃ category,
        c.categorize x.1 (some path) = .ok category := by
  simp only [← exists_categoryFor_iff]
  constructor
  · rintro ⟨us, h⟩ x hx
    obtain ⟨u, -, category, hcategory, -⟩ :=
      exists_of_mem_forall₂ (usages_eq_ok_iff.mp h).flip (mem_groupByKey hx)
    exact ⟨category, hcategory⟩
  · intro h
    rw [usages_eq_mapM]
    refine exists_mapM_eq_ok fun g hg => ?_
    obtain ⟨hne, hmem⟩ := of_mem_groupByKey hg
    obtain ⟨x, hx⟩ := List.exists_mem_of_ne_nil _ hne
    obtain ⟨hkey, hx⟩ := hmem x hx
    obtain ⟨category, hcategory⟩ := h x hx
    exact ⟨_, map_eq_ok_iff.mpr ⟨category, hkey ▸ hcategory, rfl⟩⟩

/-- A usage made of the matches of a format under one key. -/
structure Gathers (f : TokenFormat) (path : String) (categorizer : Option Categorizer)
    (g : String × List (String × Occurrence)) (u : Usage) : Prop where
  tokenName : u.tokenName = g.1
  tokenType : u.tokenType = f.name
  occurrences : u.occurrences = g.2.map (·.2)
  totalCount : u.totalCount = g.2.length
  files : u.files = [path]
  category : ∀ c ∈ categorizer, ∃ category,
    c.categorize u.tokenName (some path) = .ok category ∧ u.category = some category

/-- The usages of a format are made of the groups of its matches. -/
theorem forall₂_gathers {categorizer : Option Categorizer} {us : List Usage}
    (h : f.usages content path contextLength categorizer = .ok us) :
    List.Forall₂ (f.Gathers path categorizer)
      (groupByKey (·.1) (f.matchesIn content path contextLength)) us := by
  refine (usages_eq_ok_iff.mp h).imp ?_
  rintro g u ⟨category, hcategory, rfl⟩
  refine ⟨rfl, rfl, rfl, rfl, rfl, fun c hc => ?_⟩
  obtain rfl := Option.mem_def.mp hc
  obtain ⟨answer, hanswer, rfl⟩ := map_eq_ok_iff.mp hcategory
  exact ⟨answer, hanswer, rfl⟩

/-- The usages of a format in a file hold its occurrences there. -/
theorem of_usages {categorizer : Option Categorizer} {us : List Usage}
    (h : f.usages content path contextLength categorizer = .ok us) :
    (∀ u ∈ us, u.IsExact) ∧
      (us.flatMap (·.occurrences)).Perm (f.occurrences content path contextLength) := by
  have hgroups := forall₂_gathers h
  constructor
  · intro u hu
    obtain ⟨g, hg, hu⟩ := exists_of_mem_forall₂ hgroups hu
    obtain ⟨hne, hmem⟩ := of_mem_groupByKey hg
    constructor
    · rw [hu.totalCount, hu.occurrences, List.length_map]
    · rw [hu.files, hu.occurrences, List.map_map, eraseDups_eq_singleton]
      · rwa [ne_eq, List.map_eq_nil_iff]
      · intro p hp
        obtain ⟨m, hm, rfl⟩ := List.mem_map.mp hp
        exact (of_mem_matchesIn (hmem m hm).2).1
  · have hmatches := perm_groupByKey (·.1) (f.matchesIn content path contextLength)
    have hsame : (us.flatMap (·.occurrences)).Perm
        ((groupByKey (·.1) (f.matchesIn content path contextLength)).flatMap fun g =>
          g.2.map (·.2)) :=
      perm_flatMap_of_forall₂ hgroups fun g u hu => .of_eq hu.occurrences
    rw [← List.map_flatMap] at hsame
    exact hsame.trans (hmatches.map _)

end TokenFormat

namespace Usage

variable {formats : List TokenFormat} {content path : String} {contextLength : Int}

/-- The usages in a file hold the occurrences of the formats that apply to it. -/
theorem of_inFile {categorizer : Option Categorizer} {us : List Usage}
    (h : inFile formats content path contextLength categorizer = .ok us) :
    (∀ u ∈ us, u.IsExact) ∧
      (us.flatMap (·.occurrences)).Perm ((formats.filter (·.appliesTo path)).flatMap fun f =>
        f.occurrences content path contextLength) := by
  obtain ⟨found, hfound, hflat⟩ := bind_eq_ok_iff.mp h
  obtain rfl := Except.ok.inj hflat
  constructor
  · intro u hu
    obtain ⟨us, hus, hu⟩ := List.mem_flatten.mp hu
    obtain ⟨f, -, hf⟩ := (mem_iff_of_mapM hfound).mp hus
    exact (TokenFormat.of_usages hf).1 u hu
  · rw [flatMap_flatten]
    exact perm_flatMap_of_forall₂ (mapM_eq_ok_iff.mp hfound) fun f us hf =>
      (TokenFormat.of_usages hf).2

/-- Merged usages of a token have the figures of their occurrences. -/
theorem isExact_merge {token : String × String} {group : List Usage} (h : ∀ u ∈ group, u.IsExact) :
    (merge token group).IsExact := by
  constructor
  · unfold merge
    rw [List.map_congr_left fun u hu => (h u hu).counted, sumOf_map_length]
  · unfold merge
    have hfiles : group.flatMap (·.files) =
        group.flatMap fun u => (u.occurrences.map (·.filePath)).eraseDups :=
      List.flatMap_congr fun u hu => (h u hu).located
    rw [hfiles, eraseDups_flatMap_eraseDups, List.map_flatMap]

/-- Sorting by count keeps the usages. -/
theorem perm_aggregate (us : List Usage) :
    (aggregate us).Perm ((groupByKey key us).map fun g => merge g.1 g.2) := perm_sortByCount _ _

/-- Aggregated usages hold the occurrences of the usages that they are made of. -/
theorem perm_occurrences_aggregate (us : List Usage) :
    ((aggregate us).flatMap (·.occurrences)).Perm (us.flatMap (·.occurrences)) := by
  have hmerged := (perm_aggregate us).flatMap_right (·.occurrences)
  have hgroups := (perm_groupByKey key us).flatMap_right (·.occurrences)
  rw [List.flatMap_map] at hmerged
  rw [List.flatMap_assoc] at hgroups
  exact hmerged.trans hgroups

theorem isExact_of_mem_aggregate {us : List Usage} (h : ∀ u ∈ us, u.IsExact) {u : Usage}
    (hu : u ∈ aggregate us) : u.IsExact := by
  obtain ⟨g, hg, rfl⟩ := List.mem_map.mp ((perm_aggregate us).mem_iff.mp hu)
  exact isExact_merge fun u hu => h u ((of_mem_groupByKey hg).2 u hu).2

/-- Each token is there once for each format. -/
theorem nodup_key_aggregate (us : List Usage) : ((aggregate us).map key).Nodup := by
  rw [((perm_aggregate us).map key).nodup_iff, List.map_map]
  exact nodup_groupByKey key us

/-- Aggregated usages are in the order of their counts. -/
theorem pairwise_aggregate (us : List Usage) :
    (aggregate us).Pairwise fun u v => v.totalCount ≤ u.totalCount :=
  pairwise_sortByCount totalCount _

/-- The tiers share the usages out. -/
theorem sum_tierTotals {us : List Usage} {tiers : Tally} (h : tierTotals us = .ok tiers) :
    tiers.sum = sumOf (us.map (·.totalCount)) := by
  have hfold : ∀ {us : List Usage} {before after : Tally},
      us.foldlM (fun t u => t.add u.tier u.totalCount) before = .ok after →
        after.sum = before.sum + sumOf (us.map (·.totalCount)) := by
    intro us
    induction us with
    | nil =>
      intro before after hfold
      obtain rfl := Except.ok.inj hfold
      simp
    | cons u us ih =>
      intro before after hfold
      rw [List.foldlM_cons] at hfold
      obtain ⟨next, hnext, hrest⟩ := bind_eq_ok_iff.mp hfold
      unfold Tally.add at hnext
      split at hnext
      · obtain rfl := Except.ok.inj hnext
        rw [ih hrest, Tally.sum_bump, List.map_cons, sumOf_cons]
        omega
      · cases hnext
  have hzero : Tally.tiers.sum = 0 := by decide
  rw [hfold h, hzero, Int.zero_add]

end Usage

end DesignTokens
