import DesignTokens.Proofs.Token.ComponentUse
import DesignTokens.Proofs.Token.Tally

/-!
# Uses by owner

The uses that are listed account for the references: each one counts in the row of its owner, once,
and a row lists the tokens of its references by tier. The rows are told apart by name alone, though,
and the first reference gives a row its kind. So references of different kinds are counted together
where a component, a mixin or the utilities have the same name.
-/

namespace DesignTokens

namespace Categorizer

variable {c : Categorizer}

/-- Where the definitions and the rules name tiers, so do the categories. -/
theorem isTier_of_categorize (hdefined : ∀ e ∈ c.dictionary.entries, e.2.tier.IsTier)
    (hrules : ∀ rule ∈ c.rules, ∀ token path, (rule.classify token path).tier.IsTier)
    {token : String} {path : Option String} {category : Category}
    (h : c.categorize token path = .ok category) : category.tier.IsTier := by
  cases hfind : c.dictionary.find token with
  | error e =>
    unfold categorize at h
    rw [hfind] at h
    cases h
  | ok answer =>
    cases answer with
    | some d =>
      rw [categorize_of_find hfind] at h
      obtain ⟨key, hkey⟩ := Dictionary.mem_of_find hfind
      rw [(Category.tells_of_ofDefinition h).1]
      exact hdefined _ hkey
    | none =>
      rw [categorize_of_find_none hfind] at h
      exact Except.ok.inj h ▸ isTier_tier_judged hrules token path

theorem isTier_standard : ∀ e ∈ standard.dictionary.entries, e.2.tier.IsTier := by
  decide

end Categorizer

namespace Reference

/-- Every token has a tier where there are only the built-in definitions. -/
theorem hasTier_standard (r : Reference) : r.HasTier Categorizer.standard := by
  obtain ⟨category, hcategory⟩ := Categorizer.exists_categorize
    Categorizer.isCounting_standard.readable r.token (some r.path)
  exact ⟨category, hcategory, Categorizer.isTier_of_categorize Categorizer.isTier_standard
    (fun _ h => CategoryRule.isTier_tier_standard h) hcategory⟩

/-- The references of an owner. -/
def ofOwner (references : List Reference) (owner : String) : List Reference :=
  references.filter fun r => r.owner == owner

end Reference

namespace ComponentUse

variable {c : Categorizer} {u : ComponentUse} {uses : List ComponentUse} {usages : List Usage}
  {references : List Reference}

/-- The uses that are listed are the rows of the owners, in their order. -/
theorem isRanking_analyze (h : analyze c usages = .ok uses) :
    IsRanking (fun u : ComponentUse => (u.count : Int)) ComponentUse.name
      ((Reference.inUsages usages).map Reference.owner)
      (fun owner => ofReferences c owner (Reference.ofOwner (Reference.inUsages usages) owner))
      uses := by
  have huses := (analyze_eq_ok_iff.mp h).2
  rw [tableOf_eq] at huses
  exact (sortByCount_eq_iff fun _ => rfl).mp huses

/-! ## The account of the references -/

/-- Uses that account for references. -/
structure IsAccount (c : Categorizer) (references : List Reference) (uses : List ComponentUse) :
    Prop where
  /-- The counts add up to the number of the references. -/
  conserved : sumOf (uses.map fun u => (u.count : Int)) = references.length
  /-- No owner has two uses. -/
  nodup : (uses.map (·.name)).Nodup
  /-- The owners that have a use are those of the references. -/
  mem_names : ∀ owner, owner ∈ uses.map (·.name) ↔ ∃ r ∈ references, r.owner = owner
  /-- A use counts the references of its owner. -/
  counted : ∀ u ∈ uses, u.count = (Reference.ofOwner references u.name).length
  /-- It has a list for each of the tiers. -/
  tiers : ∀ u ∈ uses, u.tokensUsed.map Prod.fst = tierNames
  /-- A list has the tokens of the references of the owner that are in its tier, each of them once,
  in the order of the first such reference. -/
  listed : ∀ u ∈ uses, ∀ row ∈ u.tokensUsed, row.2 =
    (((Reference.ofOwner references u.name).filter (·.isIn c row.1)).map (·.token)).eraseDups
  /-- The most used come first, and of those that are used equally often the first seen. -/
  ordered : uses.Pairwise fun u v => v.count < u.count ∨ v.count = u.count ∧
    (references.map (·.owner)).idxOf u.name < (references.map (·.owner)).idxOf v.name

/-- The uses that are listed account for the references. -/
theorem isAccount_analyze (h : analyze c usages = .ok uses) :
    IsAccount c (Reference.inUsages usages) uses := by
  have hranking := isRanking_analyze h
  constructor
  · rw [← (analyze_eq_ok_iff.mp h).2, sumOf_perm ((perm_sortByCount _ _).map _)]
    exact sumOf_tableOf (fun u : ComponentUse => (u.count : Int)) (fun _ _ => rfl) _
  · exact hranking.nodup
  · intro owner
    rw [hranking.mem_labels, List.mem_map]
  · exact fun u hu => congrArg ComponentUse.count (hranking.row_eq u hu)
  · intro u hu
    rw [hranking.row_eq u hu]
    exact isTable_ofReferences c _ _
  · intro u hu row hrow
    rw [congrArg ComponentUse.tokensUsed (hranking.row_eq u hu)] at hrow
    obtain ⟨tier, -, rfl⟩ := List.mem_map.mp hrow
    rfl
  · refine hranking.ordered.imp fun hbefore => ?_
    rcases hbefore with hlt | ⟨heq, hseen⟩
    · exact .inl (Int.ofNat_lt.mp hlt)
    · exact .inr ⟨Int.ofNat_inj.mp heq, hseen⟩

/-- Where the definitions name tiers, the uses are listed exactly when every token that is referred
to has a category for its file, and then they account for the references. -/
theorem exists_analyze_iff_and_isAccount {d : Dictionary} (hd : ∀ e ∈ d.entries, e.2.tier.IsTier)
    (usages : List Usage) :
    ((∃ uses, analyze ⟨d, CategoryRule.standard⟩ usages = .ok uses) ↔
        ∀ r ∈ Reference.inUsages usages, ∃ category,
          Categorizer.categorize ⟨d, CategoryRule.standard⟩ r.token (some r.path) = .ok category) ∧
      ∀ uses, analyze ⟨d, CategoryRule.standard⟩ usages = .ok uses →
        IsAccount ⟨d, CategoryRule.standard⟩ (Reference.inUsages usages) uses := by
  refine ⟨⟨?_, fun h => ?_⟩, fun uses => isAccount_analyze⟩
  · rintro ⟨uses, huses⟩ r hr
    obtain ⟨category, hcategory, -⟩ := (analyze_eq_ok_iff.mp huses).1 r hr
    exact ⟨category, hcategory⟩
  · refine ⟨_, analyze_eq_ok_iff.mpr ⟨fun r hr => ?_, rfl⟩⟩
    obtain ⟨category, hcategory⟩ := h r hr
    exact ⟨category, hcategory, Categorizer.isTier_of_categorize hd
      (fun _ hrule => CategoryRule.isTier_tier_standard hrule) hcategory⟩

/-- The usage of a token that is found once in each of some files. -/
def usageIn (paths : List String) : Usage :=
  { tokenName := "$x"
    tokenType := "sass-variables"
    occurrences := paths.map fun path => ⟨path, 1, 1, "", "$x", "sass-variables"⟩
    totalCount := paths.length
    files := paths
    category := Option.none }

/-- The built-in definitions name tiers, so uses in a component, in the utilities and again in the
component are accounted for. -/
theorem isAccount_buttonAndUtilities :
    (∀ e ∈ Dictionary.standard.entries, e.2.tier.IsTier) ∧
      ∃ uses, analyze Categorizer.standard [usageIn ["components/_button.scss",
          "utilities/_spacing.scss"], usageInButton "$cds-red"] = .ok uses ∧
        IsAccount Categorizer.standard (Reference.inUsages [usageIn ["components/_button.scss",
          "utilities/_spacing.scss"], usageInButton "$cds-red"]) uses := by
  obtain ⟨hanswers, haccount⟩ := exists_analyze_iff_and_isAccount Categorizer.isTier_standard
    [usageIn ["components/_button.scss", "utilities/_spacing.scss"], usageInButton "$cds-red"]
  obtain ⟨uses, huses⟩ := hanswers.mpr fun r _ => (r.hasTier_standard).imp fun _ h => h.1
  exact ⟨Categorizer.isTier_standard, uses, huses, haccount uses huses⟩

/-- A definition with a tier, but a list where the name of a type belongs. -/
def listTyped : Definition :=
  { name := .text "x"
    tier := .text "raw"
    type := .list []
    subcategory := .null
    description := .null
    aliases := .list []
    deprecated := .bool false }

/-- The built-in definitions and one more. -/
def withListTyped : Dictionary := ⟨Dictionary.standard.entries ++ [(.ofString "x", listTyped)]⟩

/-- Tiers do not suffice: a token has no category if the type of its definition is none that can be
looked up. -/
theorem not_forall_exists_isAccount :
    ¬∀ d : Dictionary, (∀ e ∈ d.entries, e.2.tier.IsTier) → ∀ usages, ∃ uses,
      analyze ⟨d, CategoryRule.standard⟩ usages = .ok uses ∧
        IsAccount ⟨d, CategoryRule.standard⟩ (Reference.inUsages usages) uses := by
  intro h
  obtain ⟨uses, huses, -⟩ := h withListTyped (by decide) [usageInButton "x"]
  obtain ⟨category, hcategory, -⟩ := exists_isTier_of_analyze huses
  have hknown : withListTyped.find "x" = .ok (some listTyped) := rfl
  rw [Categorizer.categorize_of_find hknown] at hcategory
  exact absurd (Category.exists_ofDefinition_iff.mp ⟨category, hcategory⟩) (by decide)

/-! ## Kinds -/

/-- Uses that keep the kinds of references apart. -/
structure KeepsKinds (references : List Reference) (uses : List ComponentUse) : Prop where
  /-- A use counts the references that have its name and its kind. -/
  counted : ∀ u ∈ uses, u.count =
    (references.filter fun r => r.owner == u.name && r.kind == u.kind).length
  /-- Every name has a use for each kind in which it is there. -/
  separate : ∀ r ∈ references, ∃ u ∈ uses, u.name = r.owner ∧ u.kind = r.kind

/-- The same usages in another order, and the occurrences of each in another order. -/
def Rearranged (usages usages' : List Usage) : Prop :=
  ∃ ordered : List Usage, usages.Perm ordered ∧ List.Forall₂
    (fun u u' => u'.occurrences.Perm u.occurrences ∧ { u with occurrences := u'.occurrences } = u')
    ordered usages'

/-- Names and kinds that are the same whatever the order of usages and occurrences. -/
def IsSteady (c : Categorizer) (usages : List Usage) (uses : List ComponentUse) : Prop :=
  ∀ usages', Rearranged usages usages' → ∃ uses', analyze c usages' = .ok uses' ∧
    (uses'.map fun u => (u.name, u.kind)).Perm (uses.map fun u => (u.name, u.kind))

/-- No name is there in two kinds. -/
def HaveOneKind (references : List Reference) : Prop :=
  ∀ r ∈ references, ∀ r' ∈ references, r.owner = r'.owner → r.kind = r'.kind

theorem Rearranged.perm_inUsages {usages' : List Usage} (h : Rearranged usages usages') :
    (Reference.inUsages usages').Perm (Reference.inUsages usages) := by
  obtain ⟨ordered, hperm, hsame⟩ := h
  refine (perm_flatMap_of_forall₂ hsame fun u u' ⟨hoccurrences, hrest⟩ => ?_).trans
    (hperm.symm.flatMap_right _)
  rw [← hrest]
  exact hoccurrences.filterMap _

/-- A use has the name and the kind of some reference. -/
theorem exists_reference_of_mem (h : analyze c usages = .ok uses) (hu : u ∈ uses) :
    ∃ r ∈ Reference.inUsages usages, r.owner = u.name ∧ r.kind = u.kind := by
  have hranking := isRanking_analyze h
  have hrow := hranking.row_eq u hu
  have hne := filter_key_ne_nil ((hranking.mem_labels u.name).mp (List.mem_map_of_mem hu))
  obtain ⟨r, rest, hgroup⟩ := List.exists_cons_of_ne_nil hne
  have hr : r ∈ (Reference.inUsages usages).filter fun r => r.owner == u.name :=
    hgroup ▸ List.mem_cons_self
  obtain ⟨hmem, howner⟩ := List.mem_filter.mp hr
  refine ⟨r, hmem, beq_iff_eq.mp howner, ?_⟩
  rw [hrow]
  simp only [ofReferences, Reference.ofOwner, hgroup]
  rfl

/-- Where no name is there in two kinds, the uses have the names and kinds of the references. -/
theorem mem_names_and_kinds_iff (h : analyze c usages = .ok uses)
    (hkind : HaveOneKind (Reference.inUsages usages)) {label : String × String} :
    (label ∈ uses.map fun u => (u.name, u.kind)) ↔
      ∃ r ∈ Reference.inUsages usages, (r.owner, r.kind) = label := by
  rw [List.mem_map]
  constructor
  · rintro ⟨u, hu, rfl⟩
    obtain ⟨r, hr, howner, hrkind⟩ := exists_reference_of_mem h hu
    exact ⟨r, hr, by rw [howner, hrkind]⟩
  · rintro ⟨r, hr, rfl⟩
    obtain ⟨u, hu, hname⟩ := List.mem_map.mp
      (((isAccount_analyze h).mem_names r.owner).mpr ⟨r, hr, rfl⟩)
    obtain ⟨r', hr', howner, hrkind⟩ := exists_reference_of_mem h hu
    refine ⟨u, hu, ?_⟩
    rw [hname, ← hrkind, hkind r' hr' r hr (howner.trans hname)]

theorem keepsKinds_of_haveOneKind (h : analyze c usages = .ok uses)
    (hkind : HaveOneKind (Reference.inUsages usages)) :
    KeepsKinds (Reference.inUsages usages) uses := by
  constructor
  · intro u hu
    obtain ⟨r, hr, howner, hrkind⟩ := exists_reference_of_mem h hu
    rw [(isAccount_analyze h).counted u hu, Reference.ofOwner]
    refine congrArg List.length (List.filter_congr fun r' hr' => ?_)
    cases hname : r'.owner == u.name with
    | false => rfl
    | true =>
      have hsame := hkind r' hr' r hr ((beq_iff_eq.mp hname).trans howner.symm)
      rw [Bool.true_and, hsame, hrkind, beq_self_eq_true]
  · intro r hr
    obtain ⟨u, hu, hlabel⟩ :=
      List.mem_map.mp ((mem_names_and_kinds_iff h hkind).mpr ⟨r, hr, rfl⟩)
    obtain ⟨hname, hukind⟩ := Prod.mk.inj hlabel
    exact ⟨u, hu, hname, hukind⟩

/-- No name has two uses, so there is one kind with a name if there is a use for each kind. -/
theorem haveOneKind_of_separate
    (h : ∀ r ∈ references, ∃ u ∈ uses, u.name = r.owner ∧ u.kind = r.kind)
    (hnodup : (uses.map (·.name)).Nodup) : HaveOneKind references := by
  intro r hr r' hr' howner
  obtain ⟨u, hu, hname, hkind⟩ := h r hr
  obtain ⟨u', hu', hname', hkind'⟩ := h r' hr'
  obtain rfl : u = u' :=
    List.inj_on_of_nodup_map hnodup hu hu' (hname.trans (howner.trans hname'.symm))
  exact hkind.symm.trans hkind'

theorem nodup_names_and_kinds (h : analyze c usages = .ok uses) :
    (uses.map fun u => (u.name, u.kind)).Nodup := by
  have hnodup := (isAccount_analyze h).nodup
  rw [List.Nodup, List.pairwise_map] at hnodup ⊢
  exact hnodup.imp fun hne heq => hne (Prod.mk.inj heq).1

theorem isSteady_of_haveOneKind (h : analyze c usages = .ok uses)
    (hkind : HaveOneKind (Reference.inUsages usages)) : IsSteady c usages uses := by
  intro usages' hrearranged
  have hperm := hrearranged.perm_inUsages
  have hkind' : HaveOneKind (Reference.inUsages usages') := fun r hr r' hr' =>
    hkind r (hperm.mem_iff.mp hr) r' (hperm.mem_iff.mp hr')
  obtain ⟨uses', huses'⟩ : ∃ uses', analyze c usages' = .ok uses' :=
    ⟨_, analyze_eq_ok_iff.mpr
      ⟨fun r hr => (analyze_eq_ok_iff.mp h).1 r (hperm.mem_iff.mp hr), rfl⟩⟩
  refine ⟨uses', huses', (List.perm_ext_iff_of_nodup (nodup_names_and_kinds huses')
    (nodup_names_and_kinds h)).mpr fun label => ?_⟩
  rw [mem_names_and_kinds_iff huses' hkind', mem_names_and_kinds_iff h hkind]
  simp only [hperm.mem_iff]

/-- Any reference can be made the first one by another order. -/
theorem exists_rearranged_head?_eq {r : Reference} (hr : r ∈ Reference.inUsages usages) :
    ∃ usages', Rearranged usages usages' ∧ (Reference.inUsages usages').head? = some r := by
  obtain ⟨u, hu, hr⟩ := List.mem_flatMap.mp hr
  obtain ⟨o, ho, hreference⟩ := List.mem_filterMap.mp hr
  obtain ⟨before, after, husages⟩ := List.append_of_mem hu
  obtain ⟨earlier, later, hoccurrences⟩ := List.append_of_mem ho
  refine ⟨{ u with occurrences := o :: (earlier ++ later) } :: (before ++ after),
    ⟨u :: (before ++ after), ?_, .cons ⟨?_, rfl⟩ ?_⟩, ?_⟩
  · rw [husages]
    exact List.perm_middle
  · rw [hoccurrences]
    exact List.perm_middle.symm
  · exact List.forall₂_same.mpr fun _ _ => ⟨.refl _, rfl⟩
  · rw [Reference.inUsages, List.flatMap_cons, List.filterMap_cons, hreference]
    rfl

/-- The first reference gives the use of its owner its kind. -/
theorem mem_of_head?_eq {r : Reference} (h : analyze c usages = .ok uses)
    (hfirst : (Reference.inUsages usages).head? = some r) :
    (r.owner, r.kind) ∈ uses.map fun u => (u.name, u.kind) := by
  have hranking := isRanking_analyze h
  obtain ⟨rest, hreferences⟩ := List.head?_eq_some_iff.mp hfirst
  have howner : r.owner ∈ uses.map (·.name) := by
    rw [hranking.mem_labels, hreferences]
    exact List.mem_cons_self
  obtain ⟨u, hu, hname⟩ := List.mem_map.mp howner
  refine List.mem_map.mpr ⟨u, hu, Prod.ext hname ?_⟩
  rw [hranking.row_eq u hu]
  simp only [ofReferences, Reference.ofOwner, hreferences, hname, List.filter_cons,
    beq_self_eq_true, if_pos]
  rfl

/-- Kinds that do not depend on the order are those of all references with the name. -/
theorem IsSteady.haveOneKind (hsteady : IsSteady c usages uses)
    (hnodup : (uses.map (·.name)).Nodup) : HaveOneKind (Reference.inUsages usages) := by
  have hlabel : ∀ r ∈ Reference.inUsages usages,
      ∃ u ∈ uses, u.name = r.owner ∧ u.kind = r.kind := by
    intro r hr
    obtain ⟨usages', hrearranged, hfirst⟩ := exists_rearranged_head?_eq hr
    obtain ⟨uses', huses', hperm⟩ := hsteady usages' hrearranged
    obtain ⟨u, hu, heq⟩ := List.mem_map.mp (hperm.mem_iff.mp (mem_of_head?_eq huses' hfirst))
    obtain ⟨hname, hkind⟩ := Prod.mk.inj heq
    exact ⟨u, hu, hname, hkind⟩
  exact haveOneKind_of_separate hlabel hnodup

/-- Where all tokens that are referred to have tiers, the uses are listed. They keep the kinds apart
exactly when no name is there in two kinds, and only then their kinds do not depend on the order of
usages and occurrences. -/
theorem exists_keepsKinds_iff (h : ∀ r ∈ Reference.inUsages usages, r.HasTier c) :
    ∃ uses, analyze c usages = .ok uses ∧
      (KeepsKinds (Reference.inUsages usages) uses ↔ HaveOneKind (Reference.inUsages usages)) ∧
        (IsSteady c usages uses ↔ HaveOneKind (Reference.inUsages usages)) := by
  obtain ⟨uses, huses⟩ : ∃ uses, analyze c usages = .ok uses :=
    ⟨_, analyze_eq_ok_iff.mpr ⟨h, rfl⟩⟩
  have hnodup := (isAccount_analyze huses).nodup
  refine ⟨uses, huses, ⟨fun hkept => ?_, keepsKinds_of_haveOneKind huses⟩,
    ⟨fun hsteady => hsteady.haveOneKind hnodup, isSteady_of_haveOneKind huses⟩⟩
  exact haveOneKind_of_separate hkept.separate hnodup

/-- The utilities and a component that has another name, in either order, are kept apart. -/
theorem keepsKinds_buttonAndUtilities :
    (∀ r ∈ Reference.inUsages [usageIn ["components/_button.scss", "utilities/_spacing.scss"]],
      r.HasTier Categorizer.standard) ∧
      ∃ uses, analyze Categorizer.standard
          [usageIn ["components/_button.scss", "utilities/_spacing.scss"]] = .ok uses ∧
        KeepsKinds
            (Reference.inUsages [usageIn ["components/_button.scss", "utilities/_spacing.scss"]])
            uses ∧
          IsSteady Categorizer.standard
            [usageIn ["components/_button.scss", "utilities/_spacing.scss"]] uses := by
  have htiers : ∀ r ∈ Reference.inUsages
      [usageIn ["components/_button.scss", "utilities/_spacing.scss"]],
      r.HasTier Categorizer.standard := fun r _ => r.hasTier_standard
  have hreferences : Reference.inUsages
      [usageIn ["components/_button.scss", "utilities/_spacing.scss"]] =
        [ ⟨"$x", "components/_button.scss", "Button", "component"⟩,
          ⟨"$x", "utilities/_spacing.scss", "Utilities", "utility"⟩ ] := by
    decide +kernel
  have hkind : HaveOneKind (Reference.inUsages
      [usageIn ["components/_button.scss", "utilities/_spacing.scss"]]) := by
    unfold HaveOneKind
    rw [hreferences]
    decide
  obtain ⟨uses, huses, hkept, hsteady⟩ := exists_keepsKinds_iff htiers
  exact ⟨htiers, uses, huses, hkept.mpr hkind, hsteady.mpr hkind⟩

/-- The kinds are not always kept apart: a component and the utilities can have one name. -/
theorem not_forall_keepsKinds :
    ¬∀ usages, ∃ uses, analyze Categorizer.standard usages = .ok uses ∧
      KeepsKinds (Reference.inUsages usages) uses := by
  intro h
  obtain ⟨uses, huses, hkept⟩ :=
    h [usageIn ["components/_utilities.scss", "utilities/_spacing.scss"]]
  have hreferences : Reference.inUsages
      [usageIn ["components/_utilities.scss", "utilities/_spacing.scss"]] =
        [ ⟨"$x", "components/_utilities.scss", "Utilities", "component"⟩,
          ⟨"$x", "utilities/_spacing.scss", "Utilities", "utility"⟩ ] := by
    decide +kernel
  have hkind := haveOneKind_of_separate hkept.separate (isAccount_analyze huses).nodup
  rw [hreferences] at hkind
  exact absurd (hkind _ List.mem_cons_self _ (List.mem_cons_of_mem _ List.mem_cons_self) rfl)
    (by decide)

end ComponentUse

end DesignTokens
