import DesignTokens.Proofs.Token.Dictionary
import DesignTokens.Proofs.Token.Sigil

/-!
# Categories of known variables

A variable of the design system is known under its whole name, which begins with the prefix of the
system. The general format for variables asks the dictionary for the whole name, so a usage has the
category of the definition stored under it. The format of the design system asks for the rest of the
name without the prefix: a usage has the category of the definition only where the rest is known
too and its definition says the same, or where it is unknown and a rule judges it alike.
-/

namespace DesignTokens

open Pattern TokenFormat

/-- The category says of a token what a definition does: the tier, the label of the type and the
subcategory. -/
def Category.Tells (category : Category) (e : Definition) : Prop :=
  category.tier = e.tier ∧ labelOfType e.type = .ok category.label ∧
    category.subcategory = e.subcategory

/-- Two definitions have the same tier, types with the same label, and the same subcategory. -/
def Definition.Alike (d e : Definition) : Prop :=
  d.tier = e.tier ∧ Category.labelOfType d.type = Category.labelOfType e.type ∧
    d.subcategory = e.subcategory

/-- The definition can be asked for its aliases, for its tier and for the label of its type. -/
def Definition.isReadable (e : Definition) : Bool :=
  ["aliases", "tier", "type"].all (fun field => !e.lacks field) && e.type.isKey &&
    match e.aliases with
    | .list _ | .object _ | .text _ => true
    | _ => false

theorem Definition.exists_hasAlias {e : Definition} (he : e.isReadable = true) (name : Spelling) :
    ∃ has, e.hasAlias name = .ok has := by
  simp only [isReadable, List.all_cons, Bool.and_eq_true, Bool.not_eq_true'] at he
  obtain ⟨⟨⟨hthere, -⟩, -⟩, hkind⟩ := he
  unfold hasAlias
  rw [require_eq_ok hthere]
  cases haliases : e.aliases <;> rw [haliases] at hkind
  case list | object | text => exact ⟨_, rfl⟩
  all_goals cases hkind

/-- The category of the usage says what a definition does. -/
def Usage.Carries (u : Usage) (e : Definition) : Prop :=
  ∃ category, u.category = some category ∧ category.Tells e

namespace Category

variable {category : Category} {d e : Definition}

theorem tells_of_ofDefinition (h : ofDefinition d = .ok category) : category.Tells d := by
  obtain ⟨-, -, h⟩ := bind_eq_ok_iff.mp h
  obtain ⟨-, -, h⟩ := bind_eq_ok_iff.mp h
  obtain ⟨label, hlabel, hcategory⟩ := bind_eq_ok_iff.mp h
  obtain rfl := Except.ok.inj hcategory
  exact ⟨rfl, hlabel, rfl⟩

/-- A category that tells one definition tells those that are like it. -/
theorem Tells.iff_alike (h : category.Tells d) : category.Tells e ↔ d.Alike e := by
  obtain ⟨htier, hlabel, hsubcategory⟩ := h
  unfold Tells Definition.Alike
  rw [htier, hlabel, hsubcategory, @eq_comm _ (Except.ok category.label)]

theorem exists_ofDefinition (he : e.isReadable = true) :
    ∃ category, ofDefinition e = .ok category := by
  simp only [Definition.isReadable, List.all_cons, Bool.and_eq_true, Bool.not_eq_true'] at he
  obtain ⟨⟨⟨-, htier, htype, -⟩, hkey⟩, -⟩ := he
  unfold ofDefinition labelOfType
  rw [Definition.require_eq_ok htier, Definition.require_eq_ok htype, hkey]
  cases e.type <;> exact ⟨_, rfl⟩

end Category

namespace Categorizer

variable {c : Categorizer} {token : String} {path : Option String} {category : Category}
  {d e : Definition}

/-- The category of a token that the dictionary does not know: what the first rule says that
applies to it. -/
def judged (c : Categorizer) (token : String) (path : Option String) : Category :=
  match c.ruleFor token path with
  | some rule => rule.classify token.toList path
  | none => CategoryRule.remaining

/-- The standard dictionary and rules. -/
def standard : Categorizer := ⟨.standard, CategoryRule.standard⟩

/-- A known token has the category of its definition. -/
theorem categorize_of_find (h : c.dictionary.find token = .ok (some d)) :
    c.categorize token path = Category.ofDefinition d := by
  unfold categorize
  rw [h]
  rfl

/-- An unknown token is judged by the rules. -/
theorem categorize_of_find_none (h : c.dictionary.find token = .ok none) :
    c.categorize token path = .ok (c.judged token path) := by
  unfold categorize judged
  rw [h]
  cases c.ruleFor token path <;> rfl

/-- A category tells a definition if the token is known by one that is like it, or is unknown and
judged so. -/
theorem tells_iff_of_categorize (h : c.categorize token path = .ok category) :
    category.Tells e ↔
      (∃ d, c.dictionary.find token = .ok (some d) ∧ d.Alike e) ∨
        (c.dictionary.find token = .ok none ∧ (c.judged token path).Tells e) := by
  cases hfind : c.dictionary.find token with
  | error failure =>
    unfold categorize at h
    rw [hfind] at h
    cases h
  | ok answer =>
    cases answer with
    | some d =>
      rw [categorize_of_find hfind] at h
      simp [(Category.tells_of_ofDefinition h).iff_alike]
    | none =>
      rw [categorize_of_find_none hfind] at h
      obtain rfl := Except.ok.inj h
      simp

/-- With readable definitions every token is judged. -/
theorem exists_categorize (h : ∀ e ∈ c.dictionary.entries, e.2.isReadable = true)
    (token : String) (path : Option String) :
    ∃ category, c.categorize token path = .ok category := by
  obtain ⟨answer, hanswer⟩ := Dictionary.exists_find fun e he =>
    Definition.exists_hasAlias (h e he) token
  cases answer with
  | none => exact ⟨_, categorize_of_find_none hanswer⟩
  | some d =>
    obtain ⟨key, hkey⟩ := Dictionary.mem_of_find hanswer
    rw [categorize_of_find hanswer]
    exact Category.exists_ofDefinition (h _ hkey)

theorem exists_categorize_standard {path : String} : ∀ c ∈ some standard, ∀ token, ∃ category,
    c.categorize token (some path) = .ok category := by
  have hreadable : ∀ e ∈ standard.dictionary.entries, e.2.isReadable = true := by decide +kernel
  rintro c hc token
  obtain rfl := Option.some.inj hc
  exact exists_categorize hreadable token (some path)

end Categorizer

namespace TokenFormat

/-- The whole name of a variable of the design system, without the sigil. -/
def SystemReference.fullName {content : String} (r : SystemReference content) : String :=
  "cds-" ++ String.ofList r.name

end TokenFormat

namespace Usage

variable {content path : String} {contextLength : Int} {c : Categorizer} {us : List Usage}
  {e : Definition}

/-- With the formats of the design system, each of its variables has one usage, which is judged by
the rest of the name without the prefix. -/
theorem exists_categorize_system (hpath : IsSass path)
    (h : inFile canon content path contextLength (some c) = .ok us)
    (r : SystemReference content) :
    ∃ u category,
      (∀ v, (v ∈ us ∧ v.tokenType = system.name ∧ v.RefersFrom r.line r.start) ↔ v = u) ∧
        c.categorize (String.ofList r.name) (some path) = .ok category ∧
        u.category = some category := by
  obtain ⟨m, hm, hname⟩ := (finds_system content).found r
  rw [← hname]
  exact exists_of_matchAt nodup_name_canon (List.get_mem canon ⟨0, by decide⟩)
    (appliesTo_of_isSass rfl hpath) keepsApart_system h hm

/-- The usage of a variable of the design system carries what a definition says if the rest of the
name is known by a definition that is like it, or is unknown and judged so. -/
theorem exists_carries_system_iff (hpath : IsSass path)
    (h : inFile canon content path contextLength (some c) = .ok us)
    (r : SystemReference content) (e : Definition) :
    ∃ u, (∀ v, (v ∈ us ∧ v.tokenType = system.name ∧ v.RefersFrom r.line r.start) ↔ v = u) ∧
      (u.Carries e ↔
        (∃ d, c.dictionary.find (String.ofList r.name) = .ok (some d) ∧ d.Alike e) ∨
          (c.dictionary.find (String.ofList r.name) = .ok none ∧
            (c.judged (String.ofList r.name) (some path)).Tells e)) := by
  obtain ⟨u, category, hu, hcategory, hhas⟩ := exists_categorize_system hpath h r
  refine ⟨u, hu, ?_⟩
  rw [← Categorizer.tells_iff_of_categorize hcategory]
  unfold Carries
  rw [hhas]
  simp

/-- The rest of the name of the white color is judged as the dictionary defines the color. -/
theorem exists_carries_white : IsSass "a.scss" ∧
    ∃ us, inFile canon "$cds-white" "a.scss" 0 (some Categorizer.standard) = .ok us ∧
      ∃ u ∈ us, u.tokenType = system.name ∧
        u.Carries (.basic "$cds-white" "raw" "color" "Base Colors" "Primary white color") := by
  have hpath : IsSass "a.scss" := by decide
  obtain ⟨us, hus⟩ := exists_inFile canon "$cds-white" "a.scss" 0 (some Categorizer.standard)
    Categorizer.exists_categorize_standard
  let r : SystemReference "$cds-white" := ⟨0, 0, "white".toList, by decide, by decide⟩
  have hrest : String.ofList r.name = "white" := rfl
  have hunknown : Categorizer.standard.dictionary.find "white" = .ok none := rfl
  have hjudged : Categorizer.standard.judged "white" (some "a.scss") =
      .of "raw" "Colors" "Basic color values for the design system" (some "Base Colors") := rfl
  obtain ⟨u, hu, hcarries⟩ := exists_carries_system_iff hpath hus r
    (.basic "$cds-white" "raw" "color" "Base Colors" "Primary white color")
  rw [hrest, hjudged] at hcarries
  obtain ⟨hmem, htype, -⟩ := (hu u).mpr rfl
  exact ⟨hpath, us, hus, u, hmem, htype, hcarries.mpr (.inr ⟨hunknown, rfl, rfl, rfl⟩)⟩

/-- Usages of the design system do not all carry what the dictionary says of their variables: the
rest of the name of the red color is unknown and judged otherwise. -/
theorem not_forall_carries : ¬∀ {content path : String} {contextLength : Int} {c : Categorizer}
    {us : List Usage} {u : Usage} {e : Definition}, c.dictionary.Grown →
      c.rules = CategoryRule.standard → IsSass path →
      inFile canon content path contextLength (some c) = .ok us →
      ∀ r : SystemReference content,
        c.dictionary.find (Dictionary.withSigil r.fullName) = .ok (some e) →
        u ∈ us → u.tokenType = system.name → u.RefersFrom r.line r.start → u.Carries e := by
  intro hcarries
  have hpath : IsSass "a.scss" := by decide
  obtain ⟨us, hus⟩ := exists_inFile canon "$cds-red" "a.scss" 0 (some Categorizer.standard)
    Categorizer.exists_categorize_standard
  let r : SystemReference "$cds-red" := ⟨0, 0, "red".toList, by decide, by decide⟩
  have hrest : String.ofList r.name = "red" := rfl
  have hfull : Dictionary.withSigil r.fullName = "$cds-red" := by decide
  have hknown : Categorizer.standard.dictionary.find "$cds-red" =
      .ok (some (.basic "$cds-red" "raw" "color" "Brand Colors" "Canon brand red")) := rfl
  have hunknown : Categorizer.standard.dictionary.find "red" = .ok none := rfl
  have hjudged : Categorizer.standard.judged "red" (some "a.scss") = CategoryRule.remaining := rfl
  obtain ⟨u, category, hu, hcategory, hhas⟩ := exists_categorize_system hpath hus r
  rw [hrest, Categorizer.categorize_of_find_none hunknown, hjudged] at hcategory
  obtain rfl := Except.ok.inj hcategory
  obtain ⟨hmem, htype, hplace⟩ := (hu u).mpr rfl
  obtain ⟨told, htold, htier, -⟩ :=
    hcarries .standard rfl hpath hus r (hfull ▸ hknown) hmem htype hplace
  obtain rfl := Option.some.inj (hhas.symm.trans htold)
  exact absurd (Value.text.inj htier) (by decide)

end Usage

end DesignTokens
