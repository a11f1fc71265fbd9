import DesignTokens.Proofs.Lists
import DesignTokens.Proofs.Token.Levels
import DesignTokens.Proofs.Token.Tables
import DesignTokens.Token.ComponentUse

/-!
# References by owner

An occurrence that belongs to a component, a mixin or the utilities is a reference of this owner.
The references are entered one after another into a table by the name of the owner: each one counts
in the row of its owner, and its token is listed there under the tier that it has in the file. The
rows that come of it are said here at once, each by all references with the name of its owner; they
come of it exactly when every token that is referred to has one of the three tiers.
-/

namespace DesignTokens

/-- A token in a file, with the name and the kind of what refers to it there. -/
structure Reference where
  token : String
  path : String
  owner : String
  kind : String
  deriving DecidableEq

namespace Reference

/-- The reference that an occurrence of a token is, if it belongs to something. -/
def ofOccurrence? (token : String) (o : Occurrence) : Option Reference :=
  (ComponentUse.owner? o.filePath o.context).map fun owner =>
    ⟨token, o.filePath, owner.1, owner.2⟩

/-- An occurrence with an owner is a reference of it. -/
theorem ofOccurrence?_of_owner? {o : Occurrence} {owner kind : String} (token : String)
    (h : ComponentUse.owner? o.filePath o.context = some (owner, kind)) :
    ofOccurrence? token o = some ⟨token, o.filePath, owner, kind⟩ := by
  rw [ofOccurrence?, h, Option.map_some]

/-- The references in usages, in their order. -/
def inUsages (usages : List Usage) : List Reference :=
  usages.flatMap fun u => u.occurrences.filterMap (ofOccurrence? u.tokenName)

/-- Whether the token is put into a tier for its file. -/
def isIn (c : Categorizer) (r : Reference) (tier : String) : Bool :=
  match c.categorize r.token (some r.path) with
  | .ok category => category.tier.isText tier
  | .error _ => false

/-- The token has a category for its file, and the tier of this is one of the three. -/
def HasTier (c : Categorizer) (r : Reference) : Prop :=
  ∃ category, c.categorize r.token (some r.path) = .ok category ∧ category.tier.IsTier

end Reference

namespace ComponentUse

variable {c : Categorizer} {u u' : ComponentUse} {found found' : List ComponentUse} {tier : Value}
  {token name kind : String} {r : Reference} {usages : List Usage}

/-- The table has a row for each of the tiers. -/
def IsTable (u : ComponentUse) : Prop := u.tokensUsed.map Prod.fst = tierNames

theorem isTable_none (name kind : String) : (none name kind).IsTable := by
  unfold IsTable none
  rw [List.map_map]
  exact List.map_id _

/-! ## One reference after another -/

/-- Lists a token in the rows that are meant, once. -/
def listing (meant : String → Bool) (token : String) (u : ComponentUse) : ComponentUse :=
  { u with tokensUsed := u.tokensUsed.map fun t =>
      if meant t.1 && !t.2.contains token then (t.1, t.2 ++ [token]) else t }

/-- A token is listed under a tier, and under nothing else. -/
theorem listToken_eq_ok_iff (hu : u.IsTable) :
    listToken token tier u = .ok u' ↔
      tier.IsTier ∧ u.listing (fun t : String => tier.isText t) token = u' := by
  have hrow : (u.tokensUsed.find? fun t => tier.isText t.1).isSome = true ↔ tier.IsTier := by
    unfold Value.IsTier
    rw [← hu, List.find?_isSome]
    simp
  unfold listToken
  rw [← hrow]
  cases hkey : tier.isKey with
  | false =>
    refine iff_of_false (by simp) fun hfound => ?_
    rw [(hrow.mp hfound.1).isKey] at hkey
    cases hkey
  | true =>
    cases u.tokensUsed.find? fun t => tier.isText t.1 with
    | none => simp
    | some t => simp [listing]

/-- A use with one more reference of its owner. -/
def adding (c : Categorizer) (u : ComponentUse) (r : Reference) : ComponentUse :=
  listing (r.isIn c) r.token { u with count := u.count + 1 }

/-- The use that a first reference of an owner opens. -/
def opening (c : Categorizer) (r : Reference) : ComponentUse := (none r.owner r.kind).adding c r

/-- Counts a reference and lists its token under the tier that it has for its file. -/
def recordReference (c : Categorizer) (found : List ComponentUse) (r : Reference) :
    Except Failure (List ComponentUse) := do
  let category ← c.categorize r.token (some r.path)
  record r.token category.tier r.owner r.kind found

/-- A reference is recorded exactly when its token has a tier, in the row of its owner or else in a
new one. -/
theorem recordReference_eq_ok_iff (htables : ∀ u ∈ found, u.IsTable)
    (hnodup : (found.map (·.name)).Nodup) :
    recordReference c found r = .ok found' ↔
      r.HasTier c ∧ enterRow Reference.owner ComponentUse.name (opening c) (adding c) found r =
        found' := by
  unfold recordReference Reference.HasTier
  cases hcategory : c.categorize r.token (some r.path) with
  | error e => simp [Bind.bind, Except.bind]
  | ok category =>
    have hmeant : r.isIn c = fun t : String => category.tier.isText t := by
      funext t
      simp only [Reference.isIn, hcategory]
    simp only [Except.ok.injEq, exists_eq_left']
    show record r.token category.tier r.owner r.kind found = .ok found' ↔ _
    -- The rows of others are passed until the row of the owner is found, or none is left.
    induction found generalizing found' with
    | nil =>
      have hnew : ({ none r.owner r.kind with count := 1 } : ComponentUse).IsTable :=
        isTable_none r.owner r.kind
      unfold record
      simp only [bind_eq_ok_iff, listToken_eq_ok_iff hnew, Except.ok.injEq]
      rw [← hmeant]
      constructor
      · rintro ⟨u, ⟨htier, rfl⟩, rfl⟩
        exact ⟨htier, rfl⟩
      · rintro ⟨htier, rfl⟩
        exact ⟨_, ⟨htier, rfl⟩, rfl⟩
    | cons u found ih =>
      obtain ⟨hu, htables⟩ := List.forall_mem_cons.mp htables
      obtain ⟨hnew, hnodup⟩ := List.nodup_cons.mp hnodup
      unfold record
      by_cases hname : u.name = r.owner
      · have hnext : ({ u with count := u.count + 1 } : ComponentUse).IsTable := hu
        rw [if_pos hname, enterRow_cons_of_eq hname (hname ▸ hnew)]
        simp only [bind_eq_ok_iff, listToken_eq_ok_iff hnext, Except.ok.injEq]
        rw [← hmeant]
        constructor
        · rintro ⟨u', ⟨htier, rfl⟩, rfl⟩
          exact ⟨htier, rfl⟩
        · rintro ⟨htier, rfl⟩
          exact ⟨_, ⟨htier, rfl⟩, rfl⟩
      · rw [if_neg hname, enterRow_cons_of_ne hname, map_eq_ok_iff]
        simp only [ih htables hnodup]
        constructor
        · rintro ⟨rest, ⟨htier, rfl⟩, rfl⟩
          exact ⟨htier, rfl⟩
        · rintro ⟨htier, rfl⟩
          exact ⟨_, ⟨htier, rfl⟩, rfl⟩

/-! ## All references of an owner -/

/-- The use that references of one owner come to: the first one gives the kind, and a token is
listed under a tier where one of the references has it in this tier, in the order of the first such
reference. -/
def ofReferences (c : Categorizer) (name : String) (group : List Reference) : ComponentUse :=
  { name := name
    kind := (group.head?.map (·.kind)).getD ""
    count := group.length
    tokensUsed := tierNames.map fun tier =>
      (tier, ((group.filter (·.isIn c tier)).map (·.token)).eraseDups) }

theorem name_ofReferences (c : Categorizer) (name : String) (group : List Reference) :
    (ofReferences c name group).name = name := rfl

/-- The use that references come to has a row for each of the tiers. -/
theorem isTable_ofReferences (c : Categorizer) (name : String) (group : List Reference) :
    (ofReferences c name group).IsTable := by
  unfold IsTable ofReferences
  rw [List.map_map]
  exact List.map_id _

/-- A further reference is listed in the row of its tier, unless its token is there. -/
theorem tokensUsed_ofReferences_concat (c : Categorizer) (name : String) (group : List Reference)
    (r : Reference) : (ofReferences c name (group ++ [r])).tokensUsed =
      (listing (r.isIn c) r.token (ofReferences c name group)).tokensUsed := by
  unfold ofReferences listing
  rw [List.map_map]
  refine List.map_congr_left fun tier _ => ?_
  simp only [Function.comp_apply, List.filter_append, List.filter_singleton]
  cases r.isIn c tier with
  | false => simp
  | true =>
    rw [cond_true, List.map_append, List.map_singleton, eraseDups_concat]
    by_cases hlisted : r.token ∈ (group.filter (·.isIn c tier)).map (·.token)
    · simp [hlisted]
    · simp [hlisted]

/-- A reference more is added to what is counted. -/
theorem ofReferences_concat {group : List Reference} (h : group ≠ []) (r : Reference) :
    ofReferences c name (group ++ [r]) = (ofReferences c name group).adding c r := by
  obtain ⟨first, rest, rfl⟩ := List.exists_cons_of_ne_nil h
  have htokens := tokensUsed_ofReferences_concat c name (first :: rest) r
  have hcount : (first :: rest ++ [r]).length = (first :: rest).length + 1 :=
    List.length_append
  unfold ofReferences at htokens ⊢
  rw [hcount]
  exact congrArg (ComponentUse.mk name first.kind ((first :: rest).length + 1)) htokens

/-- The first reference of an owner opens what is counted. -/
theorem ofReferences_singleton (c : Categorizer) (r : Reference) :
    ofReferences c r.owner [r] = opening c r := by
  have htokens := tokensUsed_ofReferences_concat c r.owner [] r
  exact congrArg (ComponentUse.mk r.owner r.kind 1) htokens

/-- References are recorded exactly when all their tokens have tiers, and come to a row for each
owner. -/
theorem foldlM_recordReference_eq_ok_iff (references : List Reference) :
    references.foldlM (recordReference c) [] = .ok found ↔
      (∀ r ∈ references, r.HasTier c) ∧
        tableOf Reference.owner (ofReferences c) references = found := by
  induction references using List.reverseRecOn generalizing found with
  | nil =>
    refine ⟨fun h => ⟨nofun, Except.ok.inj h⟩, fun h => congrArg Except.ok h.2⟩
  | append_singleton references r ih =>
    -- The table so far is one into which a further reference can be entered.
    have htables : ∀ u ∈ tableOf Reference.owner (ofReferences c) references, u.IsTable := by
      intro u hu
      obtain ⟨name, -, rfl⟩ := mem_tableOf_iff.mp hu
      exact isTable_ofReferences c name _
    have hnodup : ((tableOf Reference.owner (ofReferences c) references).map (·.name)).Nodup := by
      rw [map_label_tableOf (name_ofReferences c)]
      exact nodup_eraseDups _
    rw [List.foldlM_append, bind_eq_ok_iff, tableOf_concat (name_ofReferences c)
      (ofReferences_singleton c) fun _ _ r h => ofReferences_concat h r]
    simp only [ih, List.foldlM_cons, List.foldlM_nil, bind_pure, List.forall_mem_append,
      List.forall_mem_singleton]
    constructor
    · rintro ⟨_, ⟨hbefore, rfl⟩, hrecord⟩
      obtain ⟨hr, htable⟩ := (recordReference_eq_ok_iff htables hnodup).mp hrecord
      exact ⟨⟨hbefore, hr⟩, htable⟩
    · rintro ⟨⟨hbefore, hr⟩, htable⟩
      exact ⟨_, ⟨hbefore, rfl⟩, (recordReference_eq_ok_iff htables hnodup).mpr ⟨hr, htable⟩⟩

/-- A usage is recorded reference by reference. -/
theorem recordUsage_eq_foldlM (c : Categorizer) (found : List ComponentUse) (u : Usage) :
    recordUsage c found u =
      (u.occurrences.filterMap (Reference.ofOccurrence? u.tokenName)).foldlM (recordReference c)
        found := by
  unfold recordUsage
  rw [List.foldlM_filterMap]
  refine congrArg (fun step => u.occurrences.foldlM step found) (funext₂ fun found o => ?_)
  unfold Reference.ofOccurrence?
  cases owner? o.filePath o.context <;> rfl

/-- The uses of tokens are listed exactly when every token that is referred to has a tier; then they
are the rows of the owners, the greatest count first. -/
theorem analyze_eq_ok_iff {uses : List ComponentUse} : analyze c usages = .ok uses ↔
    (∀ r ∈ Reference.inUsages usages, r.HasTier c) ∧
      sortByCount (fun u : ComponentUse => (u.count : Int))
        (tableOf Reference.owner (ofReferences c) (Reference.inUsages usages)) = uses := by
  have hfold : usages.foldlM (recordUsage c) [] =
      (Reference.inUsages usages).foldlM (recordReference c) [] := by
    unfold Reference.inUsages
    rw [foldlM_flatMap]
    exact congrArg (fun step => usages.foldlM step []) (funext₂ (recordUsage_eq_foldlM c))
  unfold analyze
  simp only [bind_eq_ok_iff, hfold, foldlM_recordReference_eq_ok_iff, Except.ok.injEq]
  constructor
  · rintro ⟨_, ⟨htiers, rfl⟩, huses⟩
    exact ⟨htiers, huses⟩
  · rintro ⟨htiers, huses⟩
    exact ⟨_, ⟨htiers, rfl⟩, huses⟩

end ComponentUse

end DesignTokens
