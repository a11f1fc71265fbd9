import DesignTokens.Proofs.Token.References

/-!
# Tiers and the uses of tokens

The tokens that a component uses are listed in a table with a row for each of the three tiers, and a
token whose tier is another one has no row. The rules only name the three tiers, but a definition
names what its author wrote: all tokens are listed if and only if every definition that a token can
have names one of the three, and has a type that can be looked up.
-/

namespace DesignTokens

namespace Definition

/-- The definition has a type that can be looked up, and does not lack its tier. -/
def IsLabelled (d : Definition) : Prop :=
  d.lacks "tier" = false ∧ d.lacks "type" = false ∧ d.type.isKey = true

/-- The definition names a tier, and has a type that can be looked up. -/
def IsProper (d : Definition) : Prop := d.IsLabelled ∧ d.tier.IsTier

instance (d : Definition) : Decidable d.IsLabelled :=
  inferInstanceAs (Decidable (_ ∧ _ ∧ _))

instance (d : Definition) : Decidable d.IsProper :=
  inferInstanceAs (Decidable (d.IsLabelled ∧ d.tier.IsTier))

end Definition

namespace Category

variable {d : Definition}

/-- A definition gives a category exactly when its type can be looked up. -/
theorem exists_ofDefinition_iff : (∃ category, ofDefinition d = .ok category) ↔ d.IsLabelled := by
  unfold ofDefinition Definition.require Definition.IsLabelled labelOfType
  cases d.lacks "tier" <;> cases d.lacks "type" <;> cases d.type <;>
    simp [Value.isKey, Bind.bind, Except.bind]

/-- A definition gives a category with a tier exactly when it is proper. -/
theorem exists_isTier_ofDefinition_iff :
    (∃ category, ofDefinition d = .ok category ∧ category.tier.IsTier) ↔ d.IsProper := by
  constructor
  · rintro ⟨category, hcategory, htier⟩
    rw [(tells_of_ofDefinition hcategory).1] at htier
    exact ⟨exists_ofDefinition_iff.mp ⟨category, hcategory⟩, htier⟩
  · rintro ⟨htype, htier⟩
    obtain ⟨category, hcategory⟩ := exists_ofDefinition_iff.mpr htype
    rw [← (tells_of_ofDefinition hcategory).1] at htier
    exact ⟨category, hcategory, htier⟩

end Category

namespace Categorizer

variable {c : Categorizer}

/-- Every definition that a token can have is proper. -/
def IsProper (c : Categorizer) : Prop :=
  ∀ (token : String) (d : Definition), c.dictionary.find token = .ok (some d) → d.IsProper

/-- Every token in every file has a category with a tier. -/
def NamesTiers (c : Categorizer) : Prop :=
  ∀ (token : String) (path : Option String),
    ∃ category, c.categorize token path = .ok category ∧ category.tier.IsTier

/-- A token that is not defined has a tier if the rules name tiers. -/
theorem isTier_tier_judged
    (hrules : ∀ rule ∈ c.rules, ∀ token path, (rule.classify token path).tier.IsTier)
    (token : String) (path : Option String) : (c.judged token path).tier.IsTier := by
  unfold judged
  cases hrule : c.ruleFor token path with
  | none => exact (by decide : CategoryRule.remaining.tier.IsTier)
  | some rule => exact hrules rule (List.mem_of_find?_eq_some hrule) _ _

/-- Where all names can be looked up and the rules name tiers, the categories have tiers exactly
when the definitions are proper. -/
theorem namesTiers_iff (hfind : ∀ token : String, ∃ answer, c.dictionary.find token = .ok answer)
    (hrules : ∀ rule ∈ c.rules, ∀ token path, (rule.classify token path).tier.IsTier) :
    c.NamesTiers ↔ c.IsProper := by
  constructor
  · intro h token d hknown
    have hcategory := h token none
    rw [categorize_of_find hknown] at hcategory
    exact Category.exists_isTier_ofDefinition_iff.mp hcategory
  · intro h token path
    obtain ⟨answer, hanswer⟩ := hfind token
    cases answer with
    | some d =>
      rw [categorize_of_find hanswer]
      exact Category.exists_isTier_ofDefinition_iff.mpr (h token d hanswer)
    | none => exact ⟨_, categorize_of_find_none hanswer, isTier_tier_judged hrules token path⟩

end Categorizer

namespace ComponentUse

variable {c : Categorizer}

/-- Where all tokens have categories with tiers, the uses of any tokens are listed. -/
theorem exists_analyze (hc : c.NamesTiers) (usages : List Usage) :
    ∃ uses, analyze c usages = .ok uses :=
  ⟨_, analyze_eq_ok_iff.mpr ⟨fun r _ => hc r.token (some r.path), rfl⟩⟩

/-- The place of a token in the stylesheet of a component. -/
def inButton (token : String) : Occurrence :=
  ⟨"components/_button.scss", 1, 1, "", token, "sass-variables"⟩

/-- The usage of a token in the stylesheet of a component. -/
def usageInButton (token : String) : Usage :=
  ⟨token, "sass-variables", [inButton token], 1, ["components/_button.scss"], Option.none⟩

/-- It is a reference of the component. -/
theorem inUsages_usageInButton (token : String) : Reference.inUsages [usageInButton token] =
    [⟨token, "components/_button.scss", "Button", "component"⟩] := by
  have howner : owner? "components/_button.scss" "" = some ("Button", "component") := by
    decide +kernel
  have hoccurrence := Reference.ofOccurrence?_of_owner? (o := inButton token) token howner
  rw [Reference.inUsages, List.flatMap_singleton, usageInButton, List.filterMap_cons, hoccurrence,
    List.filterMap_nil]
  rfl

/-- A token in the stylesheet of a component is only listed under a tier. -/
theorem exists_isTier_of_analyze {token : String} {uses : List ComponentUse}
    (h : analyze c [usageInButton token] = .ok uses) :
    ∃ category, c.categorize token (some "components/_button.scss") = .ok category ∧
      category.tier.IsTier := by
  have htiers := (analyze_eq_ok_iff.mp h).1
  rw [inUsages_usageInButton, List.forall_mem_singleton] at htiers
  exact htiers

/-- The uses of any tokens are listed exactly where the definitions are proper, if all names can be
looked up and the rules name tiers. -/
theorem forall_exists_analyze_iff
    (hfind : ∀ token : String, ∃ answer, c.dictionary.find token = .ok answer)
    (hrules : ∀ rule ∈ c.rules, ∀ token path, (rule.classify token path).tier.IsTier) :
    (∀ usages, ∃ uses, analyze c usages = .ok uses) ↔ c.IsProper := by
  constructor
  · intro h token d hknown
    obtain ⟨uses, huses⟩ := h [usageInButton token]
    have hcategory := exists_isTier_of_analyze huses
    rw [Categorizer.categorize_of_find hknown] at hcategory
    exact Category.exists_isTier_ofDefinition_iff.mp hcategory
  · intro h
    exact exists_analyze ((Categorizer.namesTiers_iff hfind hrules).mpr h)

end ComponentUse

end DesignTokens
