import DesignTokens.Proofs.Token.Known
import DesignTokens.Proofs.Token.Usage

/-!
# Levels of usages

The usages of a scan are counted by the levels of their categories. The standard rules name the
three tiers, but a definition may name any level, and a list or an object is no level to count by.
Where the definitions of the dictionary and the rules name levels to count by, every usage is
counted.
-/

namespace DesignTokens

/-- The name of one of the tiers. -/
def Value.IsTier (v : Value) : Prop := ∃ tier ∈ tierNames, v.isText tier = true

instance (v : Value) : Decidable v.IsTier :=
  inferInstanceAs (Decidable (∃ tier ∈ tierNames, v.isText tier = true))

theorem Value.isText_iff {v : Value} {s : Spelling} : v.isText s = true ↔ v = .text s := by
  cases v <;> simp [isText]

/-- A name is something to count by. -/
theorem Value.IsTier.isKey {v : Value} (h : v.IsTier) : v.isKey = true := by
  obtain ⟨tier, -, htext⟩ := h
  rw [isText_iff.mp htext]
  rfl

namespace CategoryRule

/-- The standard rules name the three tiers. -/
theorem isTier_tier_standard {rule : CategoryRule} (h : rule ∈ standard) (token : List Char)
    (path : Option String) : (rule.classify token path).tier.IsTier := by
  have hof (tier label purpose : String) (subcategory : Option String) (htier : tier ∈ tierNames) :
      (Category.of tier label purpose subcategory).tier.IsTier :=
    ⟨tier, htier, Value.isText_iff.mpr rfl⟩
  have hsystem : (classifySystemName token).tier.IsTier := by
    unfold classifySystemName
    split
    · exact hof _ _ _ _ (by decide)
    · split <;> exact hof _ _ _ _ (by decide)
  have hfoundation : (classifyFoundationPath path).tier.IsTier := by
    unfold classifyFoundationPath
    dsimp only
    split
    · exact hof _ _ _ _ (by decide)
    · split <;> exact hof _ _ _ _ (by decide)
  have hcomponent : (classifyComponentFile path).tier.IsTier := hof _ _ _ _ (by decide)
  have hrules : ∀ rule ∈ standard, (rule.classify token path).tier.IsTier := by
    simp (disch := decide) [standard, onName, remaining, hof, hsystem, hfoundation, hcomponent]
  exact hrules rule h

/-- The standard rules name levels to count by. -/
theorem isKey_tier_standard {rule : CategoryRule} (h : rule ∈ standard) (token : List Char)
    (path : Option String) : (rule.classify token path).tier.isKey = true :=
  (isTier_tier_standard h token path).isKey

end CategoryRule

namespace Categorizer

variable {c : Categorizer} {token : String} {path : Option String} {category : Category}

/-- Definitions that can be read, and levels to count by. -/
structure IsCounting (c : Categorizer) : Prop where
  readable : ∀ e ∈ c.dictionary.entries, e.2.isReadable = true
  defined : ∀ e ∈ c.dictionary.entries, e.2.tier.isKey = true
  ruled : ∀ rule ∈ c.rules, ∀ token path, (rule.classify token path).tier.isKey = true

/-- The categorizer without definitions of its own counts. -/
theorem isCounting_standard : IsCounting ⟨Dictionary.standard, CategoryRule.standard⟩ where
  readable := by decide
  defined := by decide
  ruled := fun _ h => CategoryRule.isKey_tier_standard h

/-- A token that is not defined has a level to count by if the rules name such levels. -/
theorem isKey_tier_judged
    (hrules : ∀ rule ∈ c.rules, ∀ token path, (rule.classify token path).tier.isKey = true)
    (token : String) (path : Option String) : (c.judged token path).tier.isKey = true := by
  unfold judged
  cases hrule : c.ruleFor token path with
  | none => rfl
  | some rule => exact hrules rule (List.mem_of_find?_eq_some hrule) _ _

/-- Every token is put into a category with a level to count by. -/
theorem IsCounting.isKey_tier (hc : c.IsCounting) (h : c.categorize token path = .ok category) :
    category.tier.isKey = true := by
  obtain ⟨answer, hanswer⟩ := Dictionary.exists_find fun e he =>
    Definition.exists_hasAlias (hc.readable e he) token
  cases answer with
  | some d =>
    obtain ⟨key, hkey⟩ := Dictionary.mem_of_find hanswer
    rw [categorize_of_find hanswer] at h
    rw [(Category.tells_of_ofDefinition h).1]
    exact hc.defined _ hkey
  | none =>
    rw [categorize_of_find_none hanswer] at h
    obtain rfl := Except.ok.inj h
    exact isKey_tier_judged hc.ruled token path

end Categorizer

namespace Usage

variable {formats : List TokenFormat} {content path : String} {contextLength : Int}
  {c : Categorizer} {us : List Usage}

/-- The usages in a file are counted by the levels of their categories. -/
theorem isKey_tier_of_inFile (hc : c.IsCounting)
    (h : inFile formats content path contextLength (some c) = .ok us) :
    ∀ u ∈ us, u.tier.isKey = true := by
  intro u hu
  obtain ⟨found, hfound, hflat⟩ := bind_eq_ok_iff.mp h
  obtain rfl := Except.ok.inj hflat
  obtain ⟨us, hus, hu⟩ := List.mem_flatten.mp hu
  obtain ⟨f, -, hf⟩ := (mem_iff_of_mapM hfound).mp hus
  obtain ⟨g, -, hgathers⟩ := exists_of_mem_forall₂ (TokenFormat.forall₂_gathers hf) hu
  obtain ⟨category, hcategory, htold⟩ := hgathers.category c rfl
  unfold tier
  rw [htold]
  exact hc.isKey_tier hcategory

/-- A merged usage is counted by the level of the first one. -/
theorem isKey_tier_of_mem_aggregate (h : ∀ u ∈ us, u.tier.isKey = true) :
    ∀ u ∈ aggregate us, u.tier.isKey = true := by
  intro u hu
  obtain ⟨g, hg, rfl⟩ := List.mem_map.mp ((perm_aggregate us).mem_iff.mp hu)
  obtain ⟨hne, hmem⟩ := of_mem_groupByKey hg
  obtain ⟨token, group⟩ := g
  cases group with
  | nil => exact absurd rfl hne
  | cons first more => exact h first (hmem first List.mem_cons_self).2

/-- Usages with levels to count by are counted. -/
theorem exists_tierTotals (h : ∀ u ∈ us, u.tier.isKey = true) :
    ∃ tiers, tierTotals us = .ok tiers := by
  have hfold : ∀ before : Tally,
      ∃ after, us.foldlM (fun t u => t.add u.tier u.totalCount) before = .ok after := by
    induction us with
    | nil => exact fun before => ⟨before, rfl⟩
    | cons u us ih =>
      intro before
      have hadd : before.add u.tier u.totalCount = .ok (Tally.bump u.tier u.totalCount before) :=
        if_pos (h u List.mem_cons_self)
      obtain ⟨after, hafter⟩ := ih (fun v hv => h v (List.mem_cons_of_mem u hv))
        (Tally.bump u.tier u.totalCount before)
      refine ⟨after, ?_⟩
      rw [List.foldlM_cons, hadd]
      exact hafter
  exact hfold Tally.tiers

end Usage

end DesignTokens
