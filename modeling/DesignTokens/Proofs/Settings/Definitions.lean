import DesignTokens.Proofs.Settings.Load
import DesignTokens.Proofs.Token.Known
import DesignTokens.Scan.Scanner

/-!
# Token definitions in the configuration

The entries that define tokens are checked twice: as settings, where each must be an object with a
name, and as definitions, where the name must be a text and the aliases a collection. Only the first
check speaks of the configuration; what the second one refuses comes out as it is. A scanner that is
built knows the name of every entry, and by a name that was unknown it knows the entry itself.
-/

namespace DesignTokens

open Settings

/-- The configuration that defines tokens and says nothing else. -/
def Settings.onlyDefinitions (v : Value) : Settings := ⟨[("custom_token_definitions", v)]⟩

/-- The name of the set of formats that is used where the configuration names none. -/
def Settings.presetName (preset : Option String) : String :=
  (preset.filter (· ≠ "")).getD "default"

namespace Settings

variable {v : Value} {entries : List Members}

/-- An entry is read exactly when it is an object. -/
theorem entry_eq_ok_iff {key : String} {index : Nat} {item : Value} {members : Members} :
    entry key index item = .ok members ↔ item = .object members := by
  cases item <;> simp [entry]

/-- An entry is accepted exactly when its name is given. -/
theorem named_eq_ok_iff {index : Nat} {members e : Members} :
    named index members = .ok e ↔ (members.getD "name" .null).isGiven = true ∧ members = e := by
  unfold named
  split
  next hgiven => rw [Except.ok.injEq, and_iff_right hgiven]
  next hnone => exact iff_of_false nofun fun h => hnone h.1

theorem isOrderly_entries (s : Settings) (key : String) : IsOrderly (s.entries key) := by
  unfold Settings.entries
  split
  · refine isOrderly_mapM fun item _ => ?_
    unfold entry
    split
    · exact .answer _
    · exact .refusal _
  · exact .refusal _

theorem isOrderly_customDefinitions (s : Settings) : IsOrderly s.customDefinitions := by
  refine isOrderly_bind_iff.mpr
    ⟨isOrderly_entries s _, fun entries _ => isOrderly_mapM fun e _ => ?_⟩
  unfold named
  split
  · exact .answer _
  · exact .refusal _

/-- The setting is a list of objects, and these are its entries. -/
theorem entries_eq_ok_iff : (onlyDefinitions v).entries "custom_token_definitions" = .ok entries ↔
    v = .list (entries.map .object) := by
  have hsetting : (onlyDefinitions v).setting "custom_token_definitions" (.list []) = v := rfl
  unfold Settings.entries
  rw [hsetting]
  cases v with
  | list items =>
    have hitem := fun i => @entry_eq_ok_iff "custom_token_definitions" i
    refine (mapM_zipIdx_eq_ok_iff hitem 0).trans ?_
    rw [Value.list.injEq, ← List.forall₂_map_right_iff, List.forall₂_eq_eq_eq]
  | _ => simp

/-- The entries are the objects of the list, if each of them has a name. -/
theorem customDefinitions_eq_ok_iff : (onlyDefinitions v).customDefinitions = .ok entries ↔
    v = .list (entries.map .object) ∧ ∀ e ∈ entries, (e.getD "name" .null).isGiven = true := by
  have hnamed : ∀ {objects : List Members},
      objects.zipIdx.mapM (fun e => named e.2 e.1) = .ok entries ↔
        (∀ e ∈ objects, (e.getD "name" .null).isGiven = true) ∧ objects = entries := by
    intro objects
    refine (mapM_zipIdx_eq_ok_iff (fun i => @named_eq_ok_iff i) 0).trans ?_
    rw [List.forall₂_and_left, List.forall₂_eq_eq_eq]
  unfold customDefinitions
  rw [bind_eq_ok_iff]
  simp only [entries_eq_ok_iff, hnamed]
  constructor
  · rintro ⟨objects, rfl, hgiven, rfl⟩
    exact ⟨rfl, hgiven⟩
  · rintro ⟨rfl, hgiven⟩
    exact ⟨entries, rfl, hgiven, rfl⟩

end Settings

namespace Definition

variable {m : Members} {d : Definition}

/-- What a definition takes from its entry: the name, and aliases as a list. It has fields of its
own. -/
theorem of_ofMembers (h : ofMembers m = .ok d) :
    m.get? "name" = some d.name ∧ (∃ items, d.aliases = .list items) ∧ d.names = none := by
  unfold ofMembers at h
  cases hname : m.get? "name" with
  | none =>
    rw [hname] at h
    cases h
  | some name =>
    rw [hname] at h
    obtain ⟨_, ⟨⟩, hmade⟩ := bind_eq_ok_iff.mp h
    obtain ⟨items, -, hmade⟩ := bind_eq_ok_iff.mp hmade
    obtain rfl := Except.ok.inj hmade
    exact ⟨rfl, ⟨items, rfl⟩, rfl⟩

/-- An entry with a name is a definition, or its aliases are no collection. -/
theorem ofMembers_cases (h : (m.getD "name" .null).isGiven = true) :
    ((m.getD "aliases" (.list [])).items?.isSome = true ∧ ∃ d, ofMembers m = .ok d) ∨
      ((m.getD "aliases" (.list [])).items?.isSome = false ∧ ofMembers m = .error .wrongKind) := by
  unfold ofMembers Value.items
  cases hname : m.get? "name" with
  | none =>
    unfold Members.getD at h
    rw [hname] at h
    cases h
  | some name =>
    cases (m.getD "aliases" (.list [])).items? with
    | none => exact .inr ⟨rfl, rfl⟩
    | some items => exact .inl ⟨rfl, _, rfl⟩

theorem exists_ofMembers (h : (m.getD "name" .null).isGiven = true)
    (haliases : (m.getD "aliases" (.list [])).items?.isSome = true) : ∃ d, ofMembers m = .ok d := by
  rcases ofMembers_cases h with ⟨-, hmade⟩ | ⟨hnone, -⟩
  · exact hmade
  · rw [haliases] at hnone
    cases hnone

/-- No fault is found with the configuration where the aliases are no collection. -/
theorem isOrderly_ofMembers_iff (h : (m.getD "name" .null).isGiven = true) :
    IsOrderly (ofMembers m) ↔ (m.getD "aliases" (.list [])).items?.isSome = true := by
  rcases ofMembers_cases h with ⟨hcollection, d, hmade⟩ | ⟨hnone, hrefused⟩
  · rw [hmade]
    exact iff_of_true (.answer d) hcollection
  · rw [hrefused, hnone]
    exact iff_of_false nofun nofun

theorem exists_hasAlias_of_ofMembers (h : ofMembers m = .ok d) (name : Spelling) :
    ∃ has, d.hasAlias name = .ok has := by
  obtain ⟨-, ⟨items, haliases⟩, hnames⟩ := of_ofMembers h
  unfold hasAlias
  rw [require_eq_ok (lacks_eq_false hnames "aliases"), haliases]
  exact ⟨_, rfl⟩

end Definition

namespace Dictionary

variable {d d' : Dictionary} {definition known : Definition} {definitions : List Definition}
  {name new : Spelling} {added : Bool}

/-- Every definition of the dictionary can be asked for an alias. -/
def IsAskable (d : Dictionary) : Prop :=
  ∀ e ∈ d.entries, ∀ name, ∃ has, e.2.hasAlias name = .ok has

theorem isAskable_standard : standard.IsAskable := by
  have hreadable : ∀ e ∈ standard.entries, e.2.isReadable = true := by decide +kernel
  exact fun e he => Definition.exists_hasAlias (hreadable e he)

theorem IsAskable.add (hd : d.IsAskable)
    (hasked : ∀ name, ∃ has, definition.hasAlias name = .ok has)
    (hadd : d.add definition = .ok (added, d')) : d'.IsAskable := by
  obtain ⟨new, -, ⟨-, rfl⟩ | ⟨-, -, rfl⟩⟩ := of_add hadd
  · exact hd
  · intro e he
    rcases List.mem_append.mp he with hold | hlast
    · exact hd e hold
    · obtain rfl := List.mem_singleton.mp hlast
      exact hasked

/-- What an addition does once the name has been looked up. -/
theorem add_of_find {answer : Option Definition} (hname : definition.name = .text new)
    (hfind : d.find new = .ok answer) :
    d.add definition =
      .ok (if answer.isSome then (false, d) else (true, d.storing new definition)) := by
  unfold add knows
  simp only [hname, hfind]
  cases answer <;> rfl

/-- A dictionary that can be asked takes exactly the definitions whose name is a text, and finds no
fault with the configuration in the others. -/
theorem add_cases (hd : d.IsAskable) (definition : Definition) :
    ((∃ new, definition.name = .text new) ∧ ∃ answer, d.add definition = .ok answer) ∨
      ((¬∃ new, definition.name = .text new) ∧ ¬IsOrderly (d.add definition)) := by
  cases hname : definition.name with
  | text new =>
    obtain ⟨answer, hfind⟩ := exists_find fun e he => hd e he new
    exact .inl ⟨⟨new, rfl⟩, _, add_of_find hname hfind⟩
  | _ =>
    refine .inr ⟨nofun, ?_⟩
    unfold add
    rw [hname]
    nofun

/-- Additions one after another end in order exactly when all names are texts. -/
theorem isOrderly_additions_iff (hd : d.IsAskable)
    (hasked : ∀ definition ∈ definitions, ∀ name, ∃ has, definition.hasAlias name = .ok has) :
    IsOrderly (definitions.foldlM (fun d definition => (d.add definition).map (·.2)) d) ↔
      ∀ definition ∈ definitions, ∃ new, definition.name = .text new := by
  induction definitions generalizing d with
  | nil => exact iff_of_true (.answer d) nofun
  | cons first more ih =>
    obtain ⟨hfirst, hmore⟩ := List.forall_mem_cons.mp hasked
    rw [List.foldlM_cons, isOrderly_bind_iff, List.forall_mem_cons]
    rcases add_cases hd first with ⟨hname, ⟨added, next⟩, hadd⟩ | ⟨hname, hrefused⟩
    · rw [and_iff_right hname, ← ih (hd.add hfirst hadd) hmore, hadd]
      exact ⟨fun h => h.2 next rfl, fun h => ⟨.answer next, fun _ hnext => Except.ok.inj hnext ▸ h⟩⟩
    · refine iff_of_false (fun h => hrefused ?_) fun h => hname h.1
      cases hadd : d.add first with
      | ok answer => exact .answer answer
      | error e =>
        rw [hadd] at h
        exact isOrderly_error_iff.mpr (isOrderly_error_iff.mp h.1)

/-- What is stored under a name stays stored under it. -/
theorem keyed?_add (hadd : d.add definition = .ok (added, d')) (h : d.keyed? name = some known) :
    d'.keyed? name = some known := by
  obtain ⟨new, -, ⟨-, rfl⟩ | ⟨-, hunknown, rfl⟩⟩ := of_add hadd
  · exact h
  · exact keyed?_storing definition (keyed?_eq_none_of_find hunknown) h

/-- A known name stays known, though perhaps for another definition. -/
theorem exists_find_add (hadd : d.add definition = .ok (added, d'))
    (h : ∃ known, d.find name = .ok (some known)) : ∃ known, d'.find name = .ok (some known) := by
  obtain ⟨known, hfind⟩ := h
  cases hkeyed : d.keyed? name with
  | some found => exact ⟨found, find_of_keyed? (keyed?_add hadd hkeyed)⟩
  | none =>
    rw [find_of_isOnlyAlias hkeyed] at hfind
    cases hlater : d'.keyed? name with
    | some found => exact ⟨found, find_of_keyed? hlater⟩
    | none =>
      refine ⟨known, (find_of_isOnlyAlias hlater).trans ?_⟩
      obtain ⟨new, -, ⟨-, rfl⟩ | ⟨-, -, rfl⟩⟩ := of_add hadd
      · exact hfind
      · exact aliased_append hfind

/-- What has become of an entry in a dictionary that was `earlier` when the entry came. -/
structure Knows (d earlier : Dictionary) (entry : Members) (name : Spelling)
    (definition : Definition) : Prop where
  named : entry.get? "name" = some (.text name)
  isRead : Definition.ofMembers entry = .ok definition
  /-- The name refers to something. -/
  resolves : ∃ known, d.find name = .ok (some known)
  /-- A name that was unknown refers to the entry itself. -/
  isOwn : earlier.find name = .ok none → d.find name = .ok (some definition)

/-- After an addition the name is known, and for the new definition if it was unknown. -/
theorem find_add_self (hadd : d.add definition = .ok (added, d'))
    (hname : definition.name = .text new) :
    (∃ known, d.find new = .ok (some known) ∧ d'.find new = .ok (some known)) ∨
      (d.find new = .ok none ∧ d'.keyed? new = some definition) := by
  cases hfind : d.find new with
  | error e =>
    unfold add knows at hadd
    simp only [hname, hfind] at hadd
    cases hadd
  | ok answer =>
    rw [add_of_find hname hfind] at hadd
    cases answer with
    | some known =>
      obtain ⟨-, rfl⟩ := Prod.mk.inj (Except.ok.inj hadd)
      exact .inl ⟨known, rfl, hfind⟩
    | none =>
      obtain ⟨-, rfl⟩ := Prod.mk.inj (Except.ok.inj hadd)
      have hnone := (Option.or_eq_none_iff.mp (keyed?_eq_none_of_find hfind)).1
      refine .inr ⟨rfl, ?_⟩
      unfold keyed?
      rw [get?_storing, hnone, if_pos rfl]
      rfl

/-- A dictionary knows the entries whose definitions it was made of. -/
theorem exists_knows {before after : List Members} {entry : Members}
    (hread : (before ++ entry :: after).mapM Definition.ofMembers = .ok definitions)
    (hmade : ofDefinitions definitions = .ok d) :
    ∃ earlier name definition, (before.mapM Definition.ofMembers >>= ofDefinitions) = .ok earlier ∧
      d.Knows earlier entry name definition := by
  rw [List.mapM_append] at hread
  obtain ⟨firsts, hfirsts, hread⟩ := bind_eq_ok_iff.mp hread
  obtain ⟨others, hothers, hread⟩ := bind_eq_ok_iff.mp hread
  obtain rfl := Except.ok.inj hread
  rw [List.mapM_cons] at hothers
  obtain ⟨own, hown, hothers⟩ := bind_eq_ok_iff.mp hothers
  obtain ⟨lasts, -, hothers⟩ := bind_eq_ok_iff.mp hothers
  obtain rfl := Except.ok.inj hothers
  -- The dictionary is made of the definitions before the entry, then of its own, then of the rest.
  unfold ofDefinitions at hmade
  rw [List.foldlM_append] at hmade
  obtain ⟨earlier, hearlier, hmade⟩ := bind_eq_ok_iff.mp hmade
  rw [List.foldlM_cons] at hmade
  obtain ⟨next, hnext, hmade⟩ := bind_eq_ok_iff.mp hmade
  obtain ⟨⟨added, after⟩, hadd, rfl⟩ := map_eq_ok_iff.mp hnext
  obtain ⟨name, hname, -⟩ := of_add hadd
  have hself := find_add_self hadd hname
  refine ⟨earlier, name, own, bind_eq_ok_iff.mpr ⟨firsts, hfirsts, hearlier⟩, ?_⟩
  constructor
  case named => rw [(Definition.of_ofMembers hown).1, hname]
  case isRead => exact hown
  case resolves =>
    refine of_additions (P := fun d => ∃ known, d.find name = .ok (some known))
      (fun h hadd => exists_find_add hadd h) hmade ?_
    rcases hself with ⟨known, -, hknown⟩ | ⟨-, hkeyed⟩
    · exact ⟨known, hknown⟩
    · exact ⟨own, find_of_keyed? hkeyed⟩
  case isOwn =>
    intro hunknown
    rcases hself with ⟨known, hknown, -⟩ | ⟨-, hkeyed⟩
    · rw [hunknown] at hknown
      cases hknown
    · exact find_of_keyed? (of_additions (P := fun d => d.keyed? name = some own)
        (fun h hadd => keyed?_add hadd h) hmade hkeyed)

end Dictionary

namespace Scanner

open Dictionary Definition

variable {entries : List Members} {preset : Option String}

/-- What the settings leave open where they only define tokens: the formats and the dictionary. -/
theorem exists_ofSettings_eq (v : Value) (preset : Option String) :
    ∃ make : List TokenFormat → Dictionary → Scanner,
      (∀ formats dictionary, (make formats dictionary).categorizer.dictionary = dictionary) ∧
        ofSettings (onlyDefinitions v) preset = (do
          let definitions ← (← (onlyDefinitions v).customDefinitions).mapM Definition.ofMembers
          let formats ← formatsNamed (.text (presetName preset))
          let dictionary ← Dictionary.ofDefinitions definitions
          .ok (make formats dictionary)) := by
  refine ⟨fun formats dictionary =>
    { formats := formats
      discovery := ⟨Discovery.defaultInclude, Discovery.defaultExclude,
        some (TokenFormat.extensionsOf formats)⟩
      categorizer := ⟨dictionary, CategoryRule.standard⟩
      copies := .text "./temp/repos"
      contextLength := Occurrence.defaultContext
      catalogSize := defaultCatalogSize }, fun _ _ => rfl, ?_⟩
  unfold ofSettings presetName
  cases preset.filter (· ≠ "") with
  | none => rfl
  | some name => rfl

/-- A set of formats has the name, or the configuration is at fault. -/
theorem formatsNamed_cases (name : String) :
    ((TokenFormat.preset? name).isSome = true ∧
        ∃ formats, formatsNamed (.text name) = .ok formats) ∨
      ((TokenFormat.preset? name).isSome = false ∧
        ∃ fault, formatsNamed (.text name) = .error (.settings fault)) := by
  unfold formatsNamed
  simp only [Spelling.shown_ofString]
  cases TokenFormat.preset? name with
  | some formats => exact .inl ⟨rfl, formats, rfl⟩
  | none => exact .inr ⟨rfl, _, rfl⟩

/-- Entries whose aliases are collections are read, each to a definition with its name. -/
theorem exists_definitions (hgiven : ∀ e ∈ entries, (e.getD "name" .null).isGiven = true)
    (haliases : ∀ e ∈ entries, (e.getD "aliases" (.list [])).items?.isSome = true) :
    ∃ definitions, entries.mapM Definition.ofMembers = .ok definitions ∧
      ((∀ d ∈ definitions, ∃ name, d.name = .text name) ↔
        ∀ e ∈ entries, ∃ name, e.get? "name" = some (.text name)) := by
  obtain ⟨definitions, hread⟩ := exists_mapM_eq_ok fun e he =>
    exists_ofMembers (hgiven e he) (haliases e he)
  refine ⟨definitions, hread, fun hnames e he => ?_, fun hnames d hd => ?_⟩
  · obtain ⟨d, hd, hmade⟩ := exists_ok_of_mapM hread he
    obtain ⟨name, hname⟩ := hnames d hd
    exact ⟨name, hname ▸ (of_ofMembers hmade).1⟩
  · obtain ⟨e, he, hmade⟩ := (mem_iff_of_mapM hread).mp hd
    obtain ⟨name, hname⟩ := hnames e he
    exact ⟨name, Option.some.inj ((of_ofMembers hmade).1.symm.trans hname)⟩

/-- Entries with names are used in order exactly when the aliases of each are a collection and,
unless the set of formats is unknown, each name is a text. -/
theorem isOrderly_make_iff (hgiven : ∀ e ∈ entries, (e.getD "name" .null).isGiven = true)
    (make : List TokenFormat → Dictionary → Scanner) (name : String) :
    IsOrderly (do
        let definitions ← entries.mapM Definition.ofMembers
        let formats ← formatsNamed (.text name)
        let dictionary ← Dictionary.ofDefinitions definitions
        .ok (make formats dictionary)) ↔
      (∀ e ∈ entries, (e.getD "aliases" (.list [])).items?.isSome = true) ∧
        ((TokenFormat.preset? name).isSome = true →
          ∀ e ∈ entries, ∃ name, e.get? "name" = some (.text name)) := by
  by_cases haliases : ∀ e ∈ entries, (e.getD "aliases" (.list [])).items?.isSome = true
  · obtain ⟨definitions, hread, hnames⟩ := exists_definitions hgiven haliases
    have hasked : ∀ d ∈ definitions, ∀ name, ∃ has, d.hasAlias name = .ok has := by
      intro d hd
      obtain ⟨e, -, hmade⟩ := (mem_iff_of_mapM hread).mp hd
      exact exists_hasAlias_of_ofMembers hmade
    rw [and_iff_right haliases, hread, ← hnames]
    change IsOrderly (formatsNamed (.text name) >>= _) ↔ _
    rcases formatsNamed_cases name with ⟨hknown, formats, hformats⟩ | ⟨hunknown, fault, hformats⟩
    · rw [hformats, hknown, ← isOrderly_additions_iff isAskable_standard hasked]
      change IsOrderly (Dictionary.ofDefinitions definitions >>= _) ↔ _
      rw [isOrderly_bind_iff, and_iff_left fun _ _ => .answer _]
      exact ⟨fun h _ => h, fun h => h rfl⟩
    · rw [hformats, hunknown]
      exact iff_of_true (.refusal fault) nofun
  · refine iff_of_false (fun horder => haliases fun e he => ?_) fun h => haliases h.1
    have hentry := fun e he => isOrderly_ofMembers_iff (hgiven e he)
    have hread := (isOrderly_bind_iff.mp horder).1
    rw [isOrderly_mapM_iff fun e he h => exists_ofMembers (hgiven e he) ((hentry e he).mp h)] at hread
    exact (hentry e he).mp (hread e he)

/-- The configuration that only defines tokens is used in order exactly when its value fails the
checks of the settings, or the aliases of every entry are a collection and, unless the set of
formats is unknown, every name is a text. A scanner that is built knows every entry. -/
theorem isOrderly_ofSettings_iff (v : Value) (preset : Option String) :
    (IsOrderly (ofSettings (onlyDefinitions v) preset) ↔
      ∀ entries : List Members, v = .list (entries.map .object) →
        (∀ e ∈ entries, (e.getD "name" .null).isGiven = true) →
          (∀ e ∈ entries, (e.getD "aliases" (.list [])).items?.isSome = true) ∧
            ((TokenFormat.preset? (presetName preset)).isSome = true →
              ∀ e ∈ entries, ∃ name, e.get? "name" = some (.text name))) ∧
    ∀ scanner, ofSettings (onlyDefinitions v) preset = .ok scanner →
      ∃ entries : List Members, v = .list (entries.map .object) ∧
        ∀ before entry after, entries = before ++ entry :: after →
          ∃ earlier name definition,
            (before.mapM Definition.ofMembers >>= Dictionary.ofDefinitions) = .ok earlier ∧
              scanner.categorizer.dictionary.Knows earlier entry name definition := by
  obtain ⟨make, hmake, hsettings⟩ := exists_ofSettings_eq v preset
  rw [hsettings]
  constructor
  · rw [isOrderly_bind_iff, and_iff_right (isOrderly_customDefinitions _)]
    simp only [customDefinitions_eq_ok_iff, and_imp]
    exact forall₃_congr fun entries _ hgiven => isOrderly_make_iff hgiven make _
  · intro scanner hscanner
    obtain ⟨entries, hentries, hscanner⟩ := bind_eq_ok_iff.mp hscanner
    obtain ⟨definitions, hread, hscanner⟩ := bind_eq_ok_iff.mp hscanner
    obtain ⟨formats, -, hscanner⟩ := bind_eq_ok_iff.mp hscanner
    obtain ⟨dictionary, hmade, hscanner⟩ := bind_eq_ok_iff.mp hscanner
    obtain rfl := Except.ok.inj hscanner
    refine ⟨entries, (customDefinitions_eq_ok_iff.mp hentries).1, ?_⟩
    rintro before entry after rfl
    rw [hmake]
    exact exists_knows hread hmade

/-- One entry, whose name is the number five. -/
def numberedDefinition : Value := .list [.object [("name", .int 5)]]

/-- Not every value of the setting is used in order: the dictionary takes the name for a text, and
that it is none comes out as it is. -/
theorem not_forall_isOrderly_ofSettings :
    ¬∀ (v : Value) (preset : Option String), IsOrderly (ofSettings (onlyDefinitions v) preset) := by
  intro h
  have hfailed : ofSettings (onlyDefinitions numberedDefinition) none =
      .error (.noMember "int" "startswith") := rfl
  have horder := h numberedDefinition none
  rw [hfailed] at horder
  cases horder

end Scanner

end DesignTokens
