import DesignTokens.Proofs.Settings.Definitions
import DesignTokens.Proofs.Token.ComponentUse

/-!
# Tiers in the configuration

A definition in the configuration names its tier freely, or leaves it to the category, and its type
may be anything. Whatever the configuration is, a scanner that is built from it gives every token
one of the three tiers, and lists the uses of any tokens, exactly if each of its definitions that
some token has names a tier and a type that can be looked up.
-/

namespace DesignTokens

namespace Dictionary

variable {d d' : Dictionary} {definitions : List Definition}

/-- What additions bring into a dictionary are the definitions that are added. -/
theorem mem_of_additions {e : Spelling × Definition}
    (h : definitions.foldlM (fun d definition => (d.add definition).map (·.2)) d = .ok d')
    (he : e ∈ d'.entries) : e ∈ d.entries ∨ e.2 ∈ definitions := by
  induction definitions generalizing d with
  | nil =>
    obtain rfl := Except.ok.inj h
    exact .inl he
  | cons first more ih =>
    rw [List.foldlM_cons] at h
    obtain ⟨next, hnext, hrest⟩ := bind_eq_ok_iff.mp h
    obtain ⟨⟨added, next⟩, hadd, rfl⟩ := map_eq_ok_iff.mp hnext
    rcases ih hrest with hmem | hmore
    · obtain ⟨new, -, ⟨-, rfl⟩ | ⟨-, -, rfl⟩⟩ := of_add hadd
      · exact .inl hmem
      · rcases List.mem_append.mp hmem with hold | hlast
        · exact .inl hold
        · obtain rfl := List.mem_singleton.mp hlast
          exact .inr List.mem_cons_self
    · exact .inr (List.mem_cons_of_mem first hmore)

/-- The definitions that every dictionary begins with are proper. -/
theorem isProper_standard : ∀ e ∈ standard.entries, e.2.IsProper := by decide +kernel

/-- A dictionary made of definitions that can be asked for aliases can be asked. -/
theorem isAskable_ofDefinitions {entries : List Members}
    (hread : entries.mapM Definition.ofMembers = .ok definitions)
    (hmade : ofDefinitions definitions = .ok d) : d.IsAskable := by
  intro e he name
  rcases mem_of_additions hmade he with hstandard | hadded
  · exact isAskable_standard e hstandard name
  · obtain ⟨entry, -, hentry⟩ := (mem_iff_of_mapM hread).mp hadded
    exact Definition.exists_hasAlias_of_ofMembers hentry name

end Dictionary

namespace Scanner

open Dictionary

variable {settings : Settings} {preset : Option String} {scanner : Scanner}

/-- A scanner takes its definitions from the entries of the settings and its rules from nowhere. -/
theorem exists_entries_of_ofSettings (h : ofSettings settings preset = .ok scanner) :
    ∃ entries definitions, settings.customDefinitions = .ok entries ∧
      entries.mapM Definition.ofMembers = .ok definitions ∧
      ofDefinitions definitions = .ok scanner.categorizer.dictionary ∧
      scanner.categorizer.rules = CategoryRule.standard := by
  unfold ofSettings at h
  obtain ⟨entries, hentries, h⟩ := bind_eq_ok_iff.mp h
  obtain ⟨definitions, hread, h⟩ := bind_eq_ok_iff.mp h
  obtain ⟨formats, -, h⟩ := bind_eq_ok_iff.mp h
  obtain ⟨include_, -, h⟩ := bind_eq_ok_iff.mp h
  obtain ⟨exclude, -, h⟩ := bind_eq_ok_iff.mp h
  obtain ⟨dictionary, hmade, h⟩ := bind_eq_ok_iff.mp h
  obtain ⟨contextLength, -, h⟩ := bind_eq_ok_iff.mp h
  obtain ⟨catalogSize, -, h⟩ := bind_eq_ok_iff.mp h
  obtain rfl := Except.ok.inj h
  exact ⟨entries, definitions, hentries, hread, hmade, rfl⟩

/-- A scanner gives every token in every file one of the three tiers, and lists the uses of any
tokens, exactly if every definition of the configuration that some token has is proper. An entry
whose name was unknown when it came is what its name stands for. -/
theorem namesTiers_iff_of_ofSettings (h : ofSettings settings preset = .ok scanner) :
    ∃ entries, settings.customDefinitions = .ok entries ∧
      (scanner.categorizer.NamesTiers ↔
        ∀ entry ∈ entries, ∀ (d : Definition) (token : String),
          Definition.ofMembers entry = .ok d →
            scanner.categorizer.dictionary.find token = .ok (some d) → d.IsProper) ∧
      ((∀ usages, ∃ uses, ComponentUse.analyze scanner.categorizer usages = .ok uses) ↔
        scanner.categorizer.NamesTiers) ∧
      ∀ before entry after, entries = before ++ entry :: after →
        ∃ earlier name definition,
          (before.mapM Definition.ofMembers >>= Dictionary.ofDefinitions) = .ok earlier ∧
            scanner.categorizer.dictionary.Knows earlier entry name definition := by
  obtain ⟨entries, definitions, hentries, hread, hmade, hrules⟩ := exists_entries_of_ofSettings h
  have hfind (token : String) : ∃ answer, scanner.categorizer.dictionary.find token = .ok answer :=
    exists_find fun e he => isAskable_ofDefinitions hread hmade e he token
  have hstandard : ∀ rule ∈ scanner.categorizer.rules, ∀ token path,
      (rule.classify token path).tier.IsTier := by
    rw [hrules]
    exact fun rule hrule => CategoryRule.isTier_tier_standard hrule
  have hnames := Categorizer.namesTiers_iff hfind hstandard
  have hproper : scanner.categorizer.IsProper ↔
      ∀ entry ∈ entries, ∀ (d : Definition) (token : String),
        Definition.ofMembers entry = .ok d →
          scanner.categorizer.dictionary.find token = .ok (some d) → d.IsProper := by
    refine ⟨fun hall entry _ d token _ hknown => hall token d hknown, fun hall token d hknown => ?_⟩
    obtain ⟨key, hkey⟩ := mem_of_find hknown
    rcases mem_of_additions hmade hkey with hbuiltin | hadded
    · exact isProper_standard _ hbuiltin
    · obtain ⟨entry, hentry, hd⟩ := (mem_iff_of_mapM hread).mp hadded
      exact hall entry hentry d token hd hknown
  refine ⟨entries, hentries, hnames.trans hproper, ?_, ?_⟩
  · exact (ComponentUse.forall_exists_analyze_iff hfind hstandard).trans hnames.symm
  · rintro before entry after rfl
    exact exists_knows hread hmade

/-- One definition with a tier. -/
def brandDefinition : Value :=
  .list [.object [("name", .text "brand"), ("tier", .text "foundation")]]

/-- A scanner that knows one more token, of the foundation, gives every token a tier. -/
theorem namesTiers_brandDefinition :
    ∃ scanner, ofSettings (Settings.onlyDefinitions brandDefinition) none = .ok scanner ∧
      scanner.categorizer.NamesTiers := by
  have hbuilt :
      (ofSettings (Settings.onlyDefinitions brandDefinition) none).toOption.isSome = true := by
    decide +kernel
  obtain ⟨scanner, hscanner⟩ := Option.isSome_iff_exists.mp hbuilt
  have hok := eq_ok_of_toOption hscanner
  obtain ⟨entries, hentries, hnames, -⟩ := namesTiers_iff_of_ofSettings hok
  refine ⟨scanner, hok, hnames.mpr fun entry hentry d token hd _ => ?_⟩
  obtain rfl := Except.ok.inj hentries
  obtain rfl := List.mem_singleton.mp hentry
  rw [← Except.ok.inj hd]
  decide

/-- One definition with the label of a category in the place of a tier. -/
def labelledDefinition : Value :=
  .list [.object [("name", .text "x"), ("category", .text "Colors")]]

/-- Not every scanner gives all tokens tiers and lists their uses: a definition may have a category
and no tier. -/
theorem not_namesTiers_labelledDefinition :
    ∃ scanner, ofSettings (Settings.onlyDefinitions labelledDefinition) none = .ok scanner ∧
      ¬scanner.categorizer.NamesTiers ∧
      ¬∃ uses, ComponentUse.analyze scanner.categorizer [ComponentUse.usageInButton "x"] =
        .ok uses := by
  have himproper :
      ((ofSettings (Settings.onlyDefinitions labelledDefinition) none).toOption.bind fun scanner =>
        (scanner.categorizer.dictionary.find "x").toOption.join.map fun d => decide d.IsProper) =
          some false := by
    decide +kernel
  obtain ⟨scanner, hscanner, himproper⟩ := Option.bind_eq_some_iff.mp himproper
  obtain ⟨d, hd, himproper⟩ := Option.map_eq_some_iff.mp himproper
  have hknown := eq_ok_of_toOption (Option.join_eq_some_iff.mp hd)
  have hnone (path : Option String) : ¬∃ category,
      scanner.categorizer.categorize "x" path = .ok category ∧ category.tier.IsTier := by
    rw [Categorizer.categorize_of_find hknown, Category.exists_isTier_ofDefinition_iff]
    exact of_decide_eq_false himproper
  exact ⟨scanner, eq_ok_of_toOption hscanner, fun h => hnone none (h "x" none),
    fun ⟨_, huses⟩ => hnone _ (ComponentUse.exists_isTier_of_analyze huses)⟩

end Scanner

end DesignTokens
