import DesignTokens.Proofs.Token.Known
import DesignTokens.Token.ComponentUse

/-!
# The deciding rule

A token that the dictionary does not know is judged by the first rule that applies to it and to the
path of its file. The standard rules have names of their own, and the last one applies to
everything, so the name that is told for a token says which rule gave it its category. Nine of them
look at the token alone. They come before those that look at the path, and what one of them decides
is the same in every file. The others see a path with slashes only, and so does what tells the
owner of an occurrence: it makes no difference which of the slashes are written as backslashes.
-/

namespace DesignTokens

/-- One path is another with slashes in place of some of its backslashes. -/
def Reslashed (path path' : String) : Prop :=
  List.Forall₂ (fun c c' => c' = c ∨ c = '\\' ∧ c' = '/') path.toList path'.toList

/-- Such paths are the same with slashes only. -/
theorem Reslashed.slashed_eq {path path' : String} (h : Reslashed path path') :
    slashed (some path) = slashed (some path') := by
  have hmap : ∀ {s s' : List Char}, List.Forall₂ (fun c c' => c' = c ∨ c = '\\' ∧ c' = '/') s s' →
      (s.map fun c => if c = '\\' then '/' else c) =
        s'.map fun c => if c = '\\' then '/' else c := by
    intro s s' hs
    induction hs with
    | nil => rfl
    | cons hc _ ih =>
      rw [List.map_cons, List.map_cons, ih]
      rcases hc with rfl | ⟨rfl, rfl⟩ <;> simp
  exact hmap h

namespace CategoryRule

variable {path path' : Option String}

/-- The names of the rules that look at a token alone. -/
def tokenRules : List String :=
  [ "raw-base-color", "raw-theme-color", "raw-spacing", "raw-font-weight", "raw-size",
    "foundation-cds", "foundation-theme-mixin", "foundation-typography-mixin",
    "foundation-breakpoint-mixin" ]

/-- A rule makes no difference between two paths. -/
def Ignores (rule : CategoryRule) (path path' : Option String) : Prop :=
  ∀ token, rule.applies token path = rule.applies token path' ∧
    rule.classify token path = rule.classify token path'

theorem nodup_map_name_standard : (standard.map (·.name)).Nodup := by decide

/-- The first rules make no difference between any paths. -/
theorem ignores_of_mem_take (path path' : Option String) :
    ∀ rule ∈ standard.take tokenRules.length, rule.Ignores path path' := by
  simp [standard, tokenRules, onName, Ignores]

/-- No rule makes a difference between paths that are the same with slashes only. -/
theorem ignores_of_slashed_eq (h : slashed path = slashed path') :
    ∀ rule ∈ standard, rule.Ignores path path' := by
  have hname : componentName path = componentName path' := by
    simp only [componentName, h]
  simp [standard, onName, Ignores, isFoundationPath, classifyFoundationPath,
    classifyComponentFile, h, hname]

/-- Some rule applies to every token in every file. -/
theorem exists_find?_standard (token : List Char) (path : Option String) :
    ∃ rule, standard.find? (fun rule => rule.applies token path) = some rule := by
  rw [← Option.isSome_iff_exists, List.find?_isSome]
  exact ⟨_, List.getLast_mem (by simp [standard]), by simp [standard]⟩

end CategoryRule

namespace Categorizer

variable {c : Categorizer} {d : Dictionary} {token : String} {path path' : Option String}
  {rule : CategoryRule}

/-- The rule that is told for a token, and the category that it has. -/
structure Agrees (c : Categorizer) (token : String) (path : Option String) : Prop where
  /-- No rule is told if the dictionary knows the token, and then its definition gives the
  category. -/
  defined : c.decidingRule token path = .ok none →
    ∃ e, c.dictionary.find token = .ok (some e) ∧ c.categorize token path = Category.ofDefinition e
  /-- A rule that is told is one of the rules, the only one with its name, and gives the category of
  a token that the dictionary does not know. -/
  ruled : ∀ name, c.decidingRule token path = .ok (some name) →
    c.dictionary.find token = .ok none ∧
      ∃ rule, (∀ rule', (rule' ∈ c.rules ∧ rule'.name = name) ↔ rule' = rule) ∧
        c.categorize token path = .ok (rule.classify token.toList path)
  /-- A token that cannot be looked up has no category. -/
  refused : ∀ e, c.decidingRule token path = .error e → c.categorize token path = .error e

theorem decidingRule_of_find {e : Definition} (h : c.dictionary.find token = .ok (some e)) :
    c.decidingRule token path = .ok none := by
  simp [decidingRule, Dictionary.knows, h, Except.map, Bind.bind, Except.bind]

theorem decidingRule_of_find_none (h : c.dictionary.find token = .ok none) :
    c.decidingRule token path = .ok ((c.ruleFor token path).map (·.name)) := by
  simp [decidingRule, Dictionary.knows, h, Except.map, Bind.bind, Except.bind]

theorem decidingRule_of_find_error {e : Failure} (h : c.dictionary.find token = .error e) :
    c.decidingRule token path = .error e ∧ c.categorize token path = .error e := by
  simp [decidingRule, categorize, Dictionary.knows, h, Except.map, Bind.bind, Except.bind]

/-- Where rules have names of their own and one of them applies, what is told says where the
category comes from. -/
theorem agrees_of_ruleFor (hnames : (c.rules.map (·.name)).Nodup)
    (hrule : c.ruleFor token path = some rule) : c.Agrees token path := by
  have hmem : rule ∈ c.rules := List.mem_of_find?_eq_some hrule
  cases hfind : c.dictionary.find token with
  | error e =>
    have htold : c.decidingRule token path = .error e := (decidingRule_of_find_error hfind).1
    have hcategory : c.categorize token path = .error e := (decidingRule_of_find_error hfind).2
    constructor <;> simp [htold, hcategory]
  | ok answer =>
    cases answer with
    | some e =>
      constructor <;> simp [decidingRule_of_find hfind, categorize_of_find hfind, hfind]
    | none =>
      have htold : c.decidingRule token path = .ok (some rule.name) := by
        rw [decidingRule_of_find_none hfind, hrule, Option.map_some]
      constructor
      · simp [htold]
      · intro name hname
        obtain rfl : rule.name = name := by simpa [htold] using hname
        refine ⟨hfind, rule, fun rule' => ⟨?_, ?_⟩, ?_⟩
        · rintro ⟨hmem', hname'⟩
          exact List.inj_on_of_nodup_map hnames hmem' hmem hname'
        · rintro rfl
          exact ⟨hmem, rfl⟩
        · rw [categorize_of_find_none hfind, judged, hrule]
      · simp [htold]

/-! ## The path -/

/-- Where the rules make no difference between two paths, the same rule applies. -/
theorem find?_applies_congr {rules : List CategoryRule}
    (h : ∀ rule ∈ rules, rule.Ignores path path') :
    rules.find? (fun rule => rule.applies token.toList path) =
      rules.find? fun rule => rule.applies token.toList path' := by
  rw [← List.head?_filter, ← List.head?_filter]
  exact congrArg List.head? (List.filter_congr fun rule hrule => (h rule hrule token.toList).1)

/-- Two files make no difference to the category of a token if the same rule applies in them and
gives the same category. -/
theorem categorize_congr (h : c.dictionary.find token = .ok none →
    c.judged token path = c.judged token path') :
    c.categorize token path = c.categorize token path' := by
  cases hfind : c.dictionary.find token with
  | error e =>
    rw [(decidingRule_of_find_error hfind).2, (decidingRule_of_find_error hfind).2]
  | ok answer =>
    cases answer with
    | some e => rw [categorize_of_find hfind, categorize_of_find hfind]
    | none => rw [categorize_of_find_none hfind, categorize_of_find_none hfind, h hfind]

/-- Rules that make no difference between two paths judge a token alike. -/
theorem judged_congr (h : ∀ rule ∈ c.rules, rule.Ignores path path') :
    c.judged token path = c.judged token path' := by
  have hrule : c.ruleFor token path = c.ruleFor token path' := find?_applies_congr h
  unfold judged
  rw [hrule]
  cases hfound : c.ruleFor token path' with
  | none => rfl
  | some rule => exact (h rule (List.mem_of_find?_eq_some hfound) token.toList).2

/-- A rule that looks at the token alone and applies in one file applies in every file: the rules
before it do not look at the path either. -/
theorem ruleFor_of_mem_tokenRules
    (hrule : ruleFor ⟨d, CategoryRule.standard⟩ token path = some rule)
    (hname : rule.name ∈ CategoryRule.tokenRules) (path' : Option String) :
    ruleFor ⟨d, CategoryRule.standard⟩ token path' = some rule ∧ rule.Ignores path path' := by
  let first := CategoryRule.standard.take CategoryRule.tokenRules.length
  let last := CategoryRule.standard.drop CategoryRule.tokenRules.length
  have hlast : ∀ rule ∈ last, rule.name ∉ CategoryRule.tokenRules := by decide
  have hsplit : ∀ path, ruleFor ⟨d, CategoryRule.standard⟩ token path =
      (first.find? fun rule => rule.applies token.toList path).or
        (last.find? fun rule => rule.applies token.toList path) := by
    intro path
    rw [← List.find?_append, List.take_append_drop]
    rfl
  have hfirst := CategoryRule.ignores_of_mem_take path path'
  have hfound : (first.find? fun rule => rule.applies token.toList path) = some rule := by
    cases h : first.find? fun rule => rule.applies token.toList path with
    | some r => rw [← hrule, hsplit, h, Option.some_or]
    | none =>
      rw [hsplit, h, Option.none_or] at hrule
      exact absurd hname (hlast rule (List.mem_of_find?_eq_some hrule))
  refine ⟨?_, hfirst rule (List.mem_of_find?_eq_some hfound)⟩
  rw [hsplit, ← find?_applies_congr hfirst, hfound, Option.some_or]

/-- What is told of the deciding rule agrees with the category. A token that the dictionary knows,
or that is decided by a rule for tokens alone, has the same category in every file, and slashes in
place of backslashes make no difference to the category or to the owner of an occurrence. -/
theorem agrees_and_categorize_congr (d : Dictionary) (token : String) :
    (∀ path, Agrees ⟨d, CategoryRule.standard⟩ token path) ∧
      (∀ path, (d.knows token = .ok true ∨ ∃ name ∈ CategoryRule.tokenRules,
          decidingRule ⟨d, CategoryRule.standard⟩ token path = .ok (some name)) →
        ∀ path', categorize ⟨d, CategoryRule.standard⟩ token path' =
          categorize ⟨d, CategoryRule.standard⟩ token path) ∧
      ∀ path path', Reslashed path path' →
        categorize ⟨d, CategoryRule.standard⟩ token (some path') =
            categorize ⟨d, CategoryRule.standard⟩ token (some path) ∧
          ∀ context, ComponentUse.owner? path' context = ComponentUse.owner? path context := by
  refine ⟨fun path => ?_, fun path h path' => ?_, fun path path' h => ⟨?_, fun context => ?_⟩⟩
  · obtain ⟨rule, hrule⟩ := CategoryRule.exists_find?_standard token.toList path
    exact agrees_of_ruleFor CategoryRule.nodup_map_name_standard hrule
  · refine categorize_congr fun hfind => ?_
    rcases h with hknown | ⟨name, hname, htold⟩
    · simp [Dictionary.knows, hfind, Except.map] at hknown
    · rw [decidingRule_of_find_none hfind] at htold
      obtain ⟨rule, hrule, rfl⟩ := Option.map_eq_some_iff.mp (Except.ok.inj htold)
      obtain ⟨hrule', hignores⟩ := ruleFor_of_mem_tokenRules hrule hname path'
      rw [judged, judged, hrule, hrule']
      exact (hignores token.toList).2.symm
  · exact categorize_congr fun _ =>
      judged_congr (CategoryRule.ignores_of_slashed_eq h.slashed_eq.symm)
  · rw [ComponentUse.owner?, ComponentUse.owner?, h.slashed_eq]

/-- A color of the theme has the same category everywhere, and a path may be written with
backslashes. -/
theorem categorize_congr_themeColor :
    decidingRule standard "$primary" none = .ok (some "raw-theme-color") ∧
      categorize standard "$primary" (some "foundation/a.scss") =
        categorize standard "$primary" none ∧
      Reslashed "app\\components/_card.scss" "app/components/_card.scss" ∧
      categorize standard "$card" (some "app/components/_card.scss") =
        categorize standard "$card" (some "app\\components/_card.scss") := by
  have htold : decidingRule standard "$primary" none = .ok (some "raw-theme-color") := rfl
  have hslashes : Reslashed "app\\components/_card.scss" "app/components/_card.scss" := by
    unfold Reslashed
    decide
  refine ⟨htold, ?_, hslashes, ?_⟩
  · exact (agrees_and_categorize_congr .standard "$primary").2.1 none
      (.inr ⟨_, by decide, htold⟩) (some "foundation/a.scss")
  · exact ((agrees_and_categorize_congr .standard "$card").2.2 _ _ hslashes).1

end Categorizer

end DesignTokens
