import DesignTokens.Proofs.Lists
import DesignTokens.Proofs.Report.Totals
import DesignTokens.Proofs.Token.Stages
import Mathlib.Algebra.Order.BigOperators.Group.Finset
import Mathlib.Data.Int.Order.Basic
import Mathlib.Tactic.Linarith

/-!
# The tokens that are used most

A report lists the ten usages with the highest counts. They are those of the results, and each
result counts a token for itself, so a token that several repositories use may be listed more than
once, each time with a part of its count, or be left out although the parts together are more than
what is listed. The entries rank the tokens by all their usages together exactly when no listed
token has a usage besides the listed one, and no other token has more usages together than a listed
one. What makes this exact is an exchange: entries that rank the tokens could be told to stand for
other tokens than those of the usages that are listed, but the usages of these are too many then.
-/

namespace DesignTokens

section Exchange

variable {κ : Type} [DecidableEq κ] {s t : Finset κ} {f : κ → ℤ} {c : ℤ}

/-- Items have no greater sum than as many that are greatest: if they reach it, there are as many of
them, and what they leave out is as small as it can be. -/
theorem sum_eq_of_exchange (hcard : s.card ≤ t.card) (hc : 0 < c) (hs : ∀ k ∈ s \ t, f k ≤ c)
    (ht : ∀ k ∈ t \ s, c ≤ f k) (hsum : ∑ k ∈ t, f k ≤ ∑ k ∈ s, f k) :
    s.card = t.card ∧ ∑ k ∈ s, f k = ∑ k ∈ t, f k ∧ ∀ k ∈ t \ s, f k = c := by
  have hbelow : ∑ k ∈ s \ t, f k ≤ (s \ t).card * c := by
    simpa using Finset.sum_le_card_nsmul _ _ _ hs
  have habove : (t \ s).card * c ≤ ∑ k ∈ t \ s, f k := by
    simpa using Finset.card_nsmul_le_sum _ _ _ ht
  have hdiff : ∑ k ∈ s \ t, f k - ∑ k ∈ t \ s, f k = ∑ k ∈ s, f k - ∑ k ∈ t, f k :=
    Finset.sum_sdiff_sub_sum_sdiff
  have hfewer : (s \ t).card ≤ (t \ s).card := Finset.card_sdiff_le_card_sdiff_iff.mpr hcard
  have hmore : (t \ s).card ≤ (s \ t).card := by
    by_contra hlt
    have hstep : ((s \ t).card : ℤ) + 1 ≤ (t \ s).card := by omega
    have := mul_le_mul_of_nonneg_right hstep hc.le
    linarith
  have hsame : (s \ t).card = (t \ s).card := le_antisymm hfewer hmore
  rw [hsame] at hbelow
  refine ⟨?_, by linarith, ?_⟩
  · exact le_antisymm hcard (Finset.card_sdiff_le_card_sdiff_iff.mp hmore)
  · have hall : ∑ k ∈ t \ s, c = ∑ k ∈ t \ s, f k := by
      rw [Finset.sum_const, nsmul_eq_mul]
      linarith
    exact fun k hk => ((Finset.sum_eq_sum_iff_of_le ht).mp hall k hk).symm

end Exchange

namespace Usage

variable {us vs : List Usage} {token : String × String}

/-- The count of a token in usages together. -/
def totalOf (us : List Usage) (token : String × String) : Int :=
  sumOf ((ofToken us token).map (·.totalCount))

/-- The total of a token does not depend on the order of usages. -/
theorem totalOf_of_perm (h : us.Perm vs) (token : String × String) :
    totalOf us token = totalOf vs token :=
  sumOf_perm ((h.filter _).map _)

/-- The total of a token adds up over two lists of usages. -/
theorem totalOf_append (us vs : List Usage) (token : String × String) :
    totalOf (us ++ vs) token = totalOf us token + totalOf vs token := by
  simp [totalOf, ofToken, sumOf_append]

/-- The total of counted usages is not negative. -/
theorem totalOf_nonneg (h : ∀ u ∈ us, 0 < u.totalCount) (token : String × String) :
    0 ≤ totalOf us token := by
  refine List.sum_nonneg fun n hn => ?_
  obtain ⟨u, hu, rfl⟩ := List.mem_map.mp hn
  exact (h u (List.mem_filter.mp hu).1).le

/-- Where all counts are positive, a token with a total of zero has no usage. -/
theorem ofToken_eq_nil_of_totalOf (h : ∀ u ∈ us, 0 < u.totalCount) (htotal : totalOf us token = 0) :
    ofToken us token = [] := by
  cases hused : ofToken us token with
  | nil => rfl
  | cons u more =>
    have hmem : ∀ v ∈ u :: more, 0 < v.totalCount := fun v hv =>
      h v (List.mem_filter.mp (hused ▸ hv)).1
    have hmore : 0 ≤ sumOf (more.map (·.totalCount)) := by
      refine List.sum_nonneg fun n hn => ?_
      obtain ⟨v, hv, rfl⟩ := List.mem_map.mp hn
      exact (hmem v (List.mem_cons_of_mem u hv)).le
    have hu := hmem u List.mem_cons_self
    rw [totalOf, hused, List.map_cons, sumOf_cons] at htotal
    omega

/-- The totals of the tokens add up to the counts of the usages. -/
theorem sum_totalOf (us : List Usage) :
    ∑ token ∈ (us.map key).toFinset, totalOf us token = sumOf (us.map (·.totalCount)) := by
  have htokens : (us.map key).toFinset = (us.map key).eraseDups.toFinset := by
    ext token
    simp
  rw [htokens, List.sum_toFinset _ (nodup_eraseDups _)]
  have hgroups : (us.map key).eraseDups.map (totalOf us) =
      (groupByKey key us).map fun g => sumOf (g.2.map (·.totalCount)) := by
    simp [groupByKey, totalOf, ofToken]
  rw [hgroups, ← sumOf_perm ((perm_groupByKey key us).map (·.totalCount)), sumOf_map_flatMap]
  rfl

end Usage

namespace TopToken

open Usage

variable {us : List Usage}

/-- Entries that stand for tokens, and rank these by all their usages together. -/
structure IsRankingOf (us : List Usage) (tokens : List (String × String)) (top : List TopToken) :
    Prop where
  /-- The tokens are pairwise different. -/
  nodup : tokens.Nodup
  /-- They are tokens of the usages. -/
  known : ∀ token ∈ tokens, token ∈ us.map key
  /-- Each entry shows its token with the usage of this in all usages together. -/
  shown : List.Forall₂ (fun token t => t.name = token.1 ∧ t.usage = totalOf us token) tokens top
  /-- The most used come first. -/
  ordered : top.Pairwise fun t t' => t'.usage ≤ t.usage
  /-- No token that is left out is used more. -/
  greatest : ∀ token ∈ us.map key, token ∉ tokens → ∀ t ∈ top, totalOf us token ≤ t.usage

/-- Entries that rank tokens by all their usages together. -/
def Ranks (us : List Usage) (top : List TopToken) : Prop := ∃ tokens, IsRankingOf us tokens top

/-- The usages that the entries of a report are made of. -/
def listed (us : List Usage) : List Usage := (sortByCount (·.totalCount) us).take limit

/-- The usages without an entry. -/
def unlisted (us : List Usage) : List Usage := (sortByCount (·.totalCount) us).drop limit

/-- No listed token is used in another place too, and no other token is used more in all places
together than a listed one. -/
structure IsSettled (us : List Usage) : Prop where
  alone : ∀ u ∈ listed us, ofToken us u.key = [u]
  greatest : ∀ v ∈ us, v.key ∉ (listed us).map key → ∀ u ∈ listed us,
    totalOf us v.key ≤ u.totalCount

/-- The top tokens are those of the usages listed. -/
theorem select_eq (us : List Usage) : select us = (listed us).map ofUsage := rfl

/-- Every usage is listed or not. -/
theorem perm_listed_append (us : List Usage) : us.Perm (listed us ++ unlisted us) := by
  rw [listed, unlisted, List.take_append_drop]
  exact (perm_sortByCount _ us).symm

/-- The usages of a token are those listed and those not listed. -/
theorem perm_ofToken_listed (us : List Usage) (token : String × String) :
    (ofToken us token).Perm (ofToken (listed us) token ++ ofToken (unlisted us) token) := by
  have hperm := (perm_listed_append us).filter fun u => u.key == token
  rwa [List.filter_append] at hperm

/-- The total of a token is what is listed of it and what is not. -/
theorem totalOf_eq_add (us : List Usage) (token : String × String) :
    totalOf us token = totalOf (listed us) token + totalOf (unlisted us) token :=
  (totalOf_of_perm (perm_listed_append us) token).trans (totalOf_append _ _ token)

/-- What is listed is a usage. -/
theorem mem_of_mem_listed {u : Usage} (h : u ∈ listed us) : u ∈ us :=
  (perm_listed_append us).mem_iff.mpr (List.mem_append_left _ h)

/-- What is not listed is a usage. -/
theorem mem_of_mem_unlisted {u : Usage} (h : u ∈ unlisted us) : u ∈ us :=
  (perm_listed_append us).mem_iff.mpr (List.mem_append_right _ h)

/-- Listed usages are in falling order of their counts. -/
theorem pairwise_listed (us : List Usage) :
    (listed us).Pairwise fun u v => v.totalCount ≤ u.totalCount :=
  (pairwise_sortByCount (·.totalCount) us).sublist (List.take_sublist _ _)

/-- A few usages are listed as they are if they are sorted. -/
theorem listed_of_pairwise (h : us.Pairwise fun u v => v.totalCount ≤ u.totalCount)
    (hfew : us.length ≤ limit) : listed us = us := by
  rw [listed, sortByCount_of_pairwise h, List.take_of_length_le hfew]

/-- One of the listed usages has the least count. -/
theorem exists_least_listed (h : listed us ≠ []) :
    ∃ last ∈ listed us, ∀ u ∈ listed us, last.totalCount ≤ u.totalCount := by
  obtain ⟨first, last, hlast⟩ := (List.eq_nil_or_concat (listed us)).resolve_left h
  have hordered := pairwise_listed us
  rw [hlast, List.concat_eq_append, List.pairwise_append] at hordered
  refine ⟨last, by simp [hlast], fun u hu => ?_⟩
  rw [hlast, List.concat_eq_append, List.mem_append, List.mem_singleton] at hu
  rcases hu with hu | rfl
  · exact hordered.2.2 u hu last (List.mem_singleton_self _)
  · exact le_rfl

/-! ## Settled entries -/

/-- Where every listed token has the listed usage alone, the tokens are pairwise different. -/
theorem nodup_key_listed (h : ∀ u ∈ listed us, ofToken us u.key = [u]) :
    ((listed us).map key).Nodup := by
  refine List.nodup_iff_count_le_one.mpr fun token => ?_
  by_cases htoken : token ∈ (listed us).map key
  · obtain ⟨u, hu, rfl⟩ := List.mem_map.mp htoken
    have hlength := (perm_ofToken_listed us u.key).length_eq
    rw [h u hu, List.length_append, List.length_singleton] at hlength
    rw [List.count_eq_countP, List.countP_map, List.countP_eq_length_filter]
    exact Nat.le.intro hlength.symm
  · rw [List.count_eq_zero_of_not_mem htoken]
    exact Nat.zero_le 1

/-- The top tokens of settled usages are a ranking. -/
theorem IsSettled.isRankingOf (h : IsSettled us) :
    IsRankingOf us ((listed us).map key) (select us) := by
  rw [select_eq]
  constructor
  · exact nodup_key_listed h.alone
  · intro token htoken
    obtain ⟨u, hu, rfl⟩ := List.mem_map.mp htoken
    exact List.mem_map_of_mem (mem_of_mem_listed hu)
  · rw [List.forall₂_map_left_iff, List.forall₂_map_right_iff, List.forall₂_same]
    intro u hu
    exact ⟨rfl, by simp [totalOf, h.alone u hu, ofUsage]⟩
  · exact List.pairwise_map.mpr (pairwise_listed us)
  · intro token htoken hleft t ht
    obtain ⟨v, hv, rfl⟩ := List.mem_map.mp htoken
    obtain ⟨u, hu, rfl⟩ := List.mem_map.mp ht
    exact h.greatest v hv hleft u hu

/-! ## Entries that rank the tokens -/

namespace IsRankingOf

variable {tokens : List (String × String)} {last : Usage}

/-- The tokens that the entries stand for have the counts of the listed usages. -/
theorem map_totalOf (h : IsRankingOf us tokens (select us)) :
    tokens.map (totalOf us) = (listed us).map (·.totalCount) := by
  have hselect : (select us).map (·.usage) = (listed us).map (·.totalCount) := by
    rw [select_eq, List.map_map]
    rfl
  rw [← hselect, ← List.forall₂_eq_eq_eq, List.forall₂_map_left_iff, List.forall₂_map_right_iff]
  exact h.shown.imp fun _ _ ht => ht.2.symm

/-- A ranking has as many tokens as are listed. -/
theorem length_eq (h : IsRankingOf us tokens (select us)) :
    tokens.length = ((listed us).map key).length := by
  simpa using congrArg List.length h.map_totalOf

/-- A token left out of a ranking has no greater total than any usage listed. -/
theorem totalOf_le (h : IsRankingOf us tokens (select us)) {token : String × String}
    (htoken : token ∈ us.map key) (hleft : token ∉ tokens) {u : Usage} (hu : u ∈ listed us) :
    totalOf us token ≤ u.totalCount :=
  h.greatest token htoken hleft (ofUsage u) (List.mem_map_of_mem hu)

/-- Together they have the counts that the tokens of the listed usages have there. -/
theorem sum_totalOf_eq (h : IsRankingOf us tokens (select us)) :
    ∑ token ∈ tokens.toFinset, totalOf us token =
      ∑ token ∈ ((listed us).map key).toFinset, totalOf (listed us) token := by
  rw [List.sum_toFinset _ h.nodup, h.map_totalOf, sum_totalOf]
  rfl

/-- The tokens of the listed usages are exchanged for those that the entries stand for. -/
theorem exchange (h : IsRankingOf us tokens (select us)) (hpos : ∀ u ∈ us, 0 < u.totalCount)
    (hmem : last ∈ listed us) (hleast : ∀ u ∈ listed us, last.totalCount ≤ u.totalCount) :
    ((listed us).map key).toFinset.card = tokens.toFinset.card ∧
      ∑ token ∈ ((listed us).map key).toFinset, totalOf us token =
        ∑ token ∈ tokens.toFinset, totalOf us token ∧
      ∀ token ∈ tokens.toFinset \ ((listed us).map key).toFinset,
        totalOf us token = last.totalCount := by
  refine sum_eq_of_exchange ?_ (hpos last (mem_of_mem_listed hmem)) ?_ ?_ ?_
  · rw [List.toFinset_card_of_nodup h.nodup, h.length_eq]
    exact List.toFinset_card_le _
  · intro token htoken
    simp only [Finset.mem_sdiff, List.mem_toFinset] at htoken
    obtain ⟨u, hu, rfl⟩ := List.mem_map.mp htoken.1
    exact h.totalOf_le (List.mem_map_of_mem (mem_of_mem_listed hu)) htoken.2 hmem
  · intro token htoken
    simp only [Finset.mem_sdiff, List.mem_toFinset] at htoken
    have hcount := List.mem_map_of_mem (f := totalOf us) htoken.1
    rw [h.map_totalOf] at hcount
    obtain ⟨u, hu, heq⟩ := List.mem_map.mp hcount
    exact heq ▸ hleast u hu
  · rw [h.sum_totalOf_eq]
    refine Finset.sum_le_sum fun token _ => ?_
    rw [totalOf_eq_add us]
    exact le_add_of_nonneg_right
      (totalOf_nonneg (fun u hu => hpos u (mem_of_mem_unlisted hu)) token)

/-- Where counts are positive, entries that rank the tokens are settled. -/
theorem isSettled (h : IsRankingOf us tokens (select us)) (hpos : ∀ u ∈ us, 0 < u.totalCount) :
    IsSettled us := by
  by_cases hne : listed us = []
  · constructor <;> simp [hne]
  obtain ⟨last, hmem, hleast⟩ := exists_least_listed hne
  obtain ⟨hcard, hsum, hsame⟩ := h.exchange hpos hmem hleast
  have hrest : ∀ u ∈ unlisted us, 0 < u.totalCount := fun u hu => hpos u (mem_of_mem_unlisted hu)
  have hnodup : ((listed us).map key).Nodup := by
    rw [List.toFinset_card_of_nodup h.nodup, h.length_eq] at hcard
    exact Multiset.coe_nodup.mp (Multiset.toFinset_card_eq_card_iff_nodup.mp hcard)
  have hzero : ∑ token ∈ ((listed us).map key).toFinset, totalOf (unlisted us) token = 0 := by
    rw [h.sum_totalOf_eq] at hsum
    simp only [totalOf_eq_add us, Finset.sum_add_distrib] at hsum
    linarith
  have hnone : ∀ u ∈ listed us, ofToken (unlisted us) u.key = [] := fun u hu =>
    ofToken_eq_nil_of_totalOf hrest
      ((Finset.sum_eq_zero_iff_of_nonneg fun token _ => totalOf_nonneg hrest token).mp hzero u.key
        (List.mem_toFinset.mpr (List.mem_map_of_mem hu)))
  constructor
  · intro u hu
    have hperm := perm_ofToken_listed us u.key
    have hone : ofToken (listed us) u.key = [u] := filter_key_eq_singleton hnodup hu
    rwa [hone, hnone u hu, List.append_nil, List.perm_singleton] at hperm
  · intro v hv hother u hu
    by_cases htoken : v.key ∈ tokens
    · rw [hsame v.key (by simpa [htoken] using hother)]
      exact hleast u hu
    · exact h.totalOf_le (List.mem_map_of_mem hv) htoken hu

end IsRankingOf

/-- Where counts are positive, the entries of usages rank the tokens exactly when they are
settled. -/
theorem ranks_select_iff (hpos : ∀ u ∈ us, 0 < u.totalCount) :
    Ranks us (select us) ↔ IsSettled us :=
  ⟨fun ⟨_, h⟩ => h.isSettled hpos, fun h => ⟨_, h.isRankingOf⟩⟩

end TopToken

namespace Report

open ReportSummary TopToken

/-- A report ranks the tokens of all its results. -/
def Ranked (now : Timestamp) (results : List ScanResult) : Prop :=
  ∃ report, ofResults now results = .ok report ∧
    TopToken.Ranks (usagesOf results) report.summary.topTokens

/-- There is a ranking of the tokens if there is a report and its entries rank them. -/
theorem ranked_iff (now : Timestamp) (results : List ScanResult) :
    Ranked now results ↔ (∃ report, ofResults now results = .ok report) ∧
      Ranks (usagesOf results) (select (usagesOf results)) := by
  have htop : ∀ {report}, ofResults now results = .ok report →
      report.summary.topTokens = select (usagesOf results) := by
    intro report hreport
    obtain ⟨teams, mean, -, -, rfl⟩ := ofResults_eq_ok_iff.mp hreport
    rfl
  constructor
  · rintro ⟨report, hreport, hranks⟩
    exact ⟨⟨report, hreport⟩, htop hreport ▸ hranks⟩
  · rintro ⟨⟨report, hreport⟩, hranks⟩
    exact ⟨report, hreport, (htop hreport).symm ▸ hranks⟩

/-- A report on results ranks their tokens if every team can be a key, the coverages have a mean and
the entries are settled, and where every usage counts something only then. -/
theorem ranked_iff_isSettled (now : Timestamp) (results : List ScanResult) :
    ((∀ r ∈ results, (teamOf r).isKey = true) → (∃ mean, average results = .ok mean) →
        IsSettled (usagesOf results) → Ranked now results) ∧
      ((∀ u ∈ usagesOf results, 0 < u.totalCount) →
        (Ranked now results ↔ (∀ r ∈ results, (teamOf r).isKey = true) ∧
          (∃ mean, average results = .ok mean) ∧ IsSettled (usagesOf results))) := by
  constructor
  · intro hkeys hmean hsettled
    exact (ranked_iff now results).mpr
      ⟨exists_ofResults_iff_average.mpr ⟨hkeys, hmean⟩, _, hsettled.isRankingOf⟩
  · intro hpos
    rw [ranked_iff, exists_ofResults_iff_average, ranks_select_iff hpos, and_assoc]

/-- The result of a repository in which tokens are used. -/
def resultWith (usages : List Usage) : ScanResult :=
  { (default : ScanResult) with tokensFound := usages }

/-- Two repositories with a token each. -/
def withTokensApart : List ScanResult :=
  [ resultWith [Usage.inStylesheet "a.css" "--y" [2, 3, 5]],
    resultWith [Usage.inStylesheet "b.css" "--x" [1, 4]] ]

/-- The tokens of two repositories that do not share any are ranked. -/
theorem ranked_withTokensApart :
    (∀ r ∈ withTokensApart, (teamOf r).isKey = true) ∧
      (∃ mean, average withTokensApart = .ok mean) ∧ IsSettled (usagesOf withTokensApart) ∧
      (∀ u ∈ usagesOf withTokensApart, 0 < u.totalCount) ∧ Ranked default withTokensApart := by
  have hkeys : ∀ r ∈ withTokensApart, (teamOf r).isKey = true := by decide
  have hmean : ∃ mean, average withTokensApart = .ok mean := ⟨_, rfl⟩
  have hlisted : listed (usagesOf withTokensApart) = usagesOf withTokensApart :=
    listed_of_pairwise (by decide) (by decide)
  have hsettled : IsSettled (usagesOf withTokensApart) := by
    constructor
    · rw [hlisted]
      rintro u (_ | ⟨_, _ | ⟨_, ⟨⟩⟩⟩) <;> rfl
    · rw [hlisted]
      exact fun v hv hother => absurd (List.mem_map_of_mem hv) hother
  have hpos : ∀ u ∈ usagesOf withTokensApart, 0 < u.totalCount := by decide
  exact ⟨hkeys, hmean, hsettled, hpos,
    ((ranked_iff_isSettled default withTokensApart).2 hpos).mpr ⟨hkeys, hmean, hsettled⟩⟩

/-- A token that two repositories use is listed twice. -/
theorem not_forall_ranked : ¬∀ now results, Ranked now results := by
  intro h
  let usages := [Usage.inStylesheet "a.css" "--x" [1], Usage.inStylesheet "b.css" "--x" [1]]
  obtain ⟨-, hranks⟩ := (ranked_iff default (usages.map fun u => resultWith [u])).mp (h _ _)
  have hpos : ∀ u ∈ usages, 0 < u.totalCount := by decide
  have hsettled : IsSettled usages := (ranks_select_iff hpos).mp hranks
  have hlisted : listed usages = usages := listed_of_pairwise (by decide) (by decide)
  have halone := hsettled.alone
  rw [hlisted, List.forall_mem_cons] at halone
  exact absurd (congrArg List.length halone.1) (by decide)

end Report

end DesignTokens
