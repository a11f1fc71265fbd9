import DesignTokens.Proofs.Token.Renewal

/-!
# Definitions and their own names

A dictionary keeps a definition under a key, and the definition has a name of its own. Additions
store a definition under its name, and changes leave both alone, except that one may give the name
another value or put an object in the place of all fields. A definition is found under its name as
long as that is its key. Under another name it is found by the rules for names that are no keys
only: the other spelling of a key leads to what is stored under the key, and an alias leads to the
first definition that has it.
-/

namespace DesignTokens

namespace Dictionary

/-- An entry is the first one whose definition has an alias. Those before it can be asked for it. -/
inductive IsFirstAliased (name : Spelling) (e : Spelling × Definition) :
    List (Spelling × Definition) → Prop
  | here {rest : List (Spelling × Definition)} (has : e.2.hasAlias name = .ok true) :
    IsFirstAliased name e (e :: rest)
  | later {other : Spelling × Definition} {rest : List (Spelling × Definition)}
    (hasNot : other.2.hasAlias name = .ok false) (first : IsFirstAliased name e rest) :
    IsFirstAliased name e (other :: rest)

/-- A name stands for a key: it is the key, or no key itself and another spelling of the key. -/
def StandsFor (d : Dictionary) (name key : Spelling) : Prop :=
  key = name ∨ (name ∉ d.keys ∧ (key = withSigil name ∨ key = withoutSigil name))

/-- A name leads to an entry: it stands for the key, or for none and is an alias. -/
def LeadsTo (d : Dictionary) (name : Spelling) (e : Spelling × Definition) : Prop :=
  e ∈ d.entries ∧
    (d.StandsFor name e.1 ∨ (d.IsOnlyAlias name ∧ IsFirstAliased name e d.entries))

/-- Every definition is the one that its own name refers to. -/
structure LeadsBack (d : Dictionary) : Prop where
  found : ∀ e ∈ d.entries, ∃ own, e.2.name = .text own ∧ d.find own = .ok (some e.2)
  /-- No two definitions have one name. -/
  apart : d.entries.Pairwise fun e e' => e.2.name ≠ e'.2.name
  /-- No definition is added under a name that another one has. -/
  refused : ∀ e ∈ d.entries, ∀ definition : Definition, definition.name = e.2.name →
    d.add definition = .ok (false, d)

variable {custom : List Definition} {d : Dictionary} {name : Spelling} {stored : Definition}
  {e e' : Spelling × Definition} {entries : List (Spelling × Definition)}

section Lookup

/-- An alias leads to the definition of the first entry that has it. -/
theorem aliased_eq_some_iff : aliased name entries = .ok (some stored) ↔
    ∃ e, e.2 = stored ∧ IsFirstAliased name e entries := by
  induction entries with
  | nil =>
    refine iff_of_false nofun ?_
    rintro ⟨e, -, hfirst⟩
    cases hfirst
  | cons other entries ih =>
    unfold aliased
    constructor
    · intro h
      obtain ⟨has, hhas, hrest⟩ := bind_eq_ok_iff.mp h
      cases has with
      | true =>
        obtain rfl := Option.some.inj (Except.ok.inj hrest)
        exact ⟨other, rfl, .here hhas⟩
      | false =>
        obtain ⟨e, hstored, hfirst⟩ := ih.mp hrest
        exact ⟨e, hstored, .later hhas hfirst⟩
    · rintro ⟨e, rfl, hhas | ⟨hnot, hfirst⟩⟩
      · rw [hhas]
        rfl
      · rw [hnot]
        exact ih.mpr ⟨e, rfl, hfirst⟩

/-- The first entry with an alias is one of the entries. -/
theorem IsFirstAliased.mem (h : IsFirstAliased name e entries) : e ∈ entries := by
  induction h with
  | here => exact List.mem_cons_self
  | later _ _ ih => exact List.mem_cons_of_mem _ ih

/-- There is one first entry with an alias. -/
theorem IsFirstAliased.unique (h : IsFirstAliased name e entries)
    (h' : IsFirstAliased name e' entries) : e = e' := by
  induction h with
  | here hhas =>
    cases h' with
    | here => rfl
    | later hnot =>
      rw [hhas] at hnot
      cases hnot
  | later hnot _ ih =>
    cases h' with
    | here hhas =>
      rw [hhas] at hnot
      cases hnot
    | later _ hfirst => exact ih hfirst

/-- Where no key comes twice, an entry is what is stored under its key. -/
theorem get?_eq_some_iff (hunique : d.keys.Nodup) :
    d.get? name = some stored ↔ (name, stored) ∈ d.entries := by
  refine ⟨mem_of_get?, fun h => ?_⟩
  obtain ⟨found, hfound⟩ := exists_get?_of_mem_keys (d := d) (List.mem_map_of_mem h)
  have heq := List.inj_on_of_nodup_map hunique (mem_of_get? hfound) h rfl
  rw [hfound, (Prod.mk.inj heq).2]

/-- A name stands for one key at most. -/
theorem StandsFor.unique {key key' : Spelling} (hkey : key ∈ d.keys) (hkey' : key' ∈ d.keys)
    (h : d.StandsFor name key) (h' : d.StandsFor name key') : key = key' := by
  rcases h with rfl | ⟨hname, hspelled⟩
  · rcases h' with rfl | ⟨hname, -⟩
    · rfl
    · exact absurd hkey hname
  · rcases h' with rfl | ⟨-, hspelled'⟩
    · exact absurd hkey' hname
    · -- One of the two other spellings is the name itself, which is no key.
      have hone : withSigil name = name ∨ withoutSigil name = name :=
        or_iff_not_imp_left.mpr withoutSigil_of_ne
      have hne : key ≠ name := fun heq => hname (heq ▸ hkey)
      have hne' : key' ≠ name := fun heq => hname (heq ▸ hkey')
      rcases hone with hsame | hsame <;> rw [hsame] at hspelled hspelled'
      · exact (hspelled.resolve_left hne).trans (hspelled'.resolve_left hne').symm
      · exact (hspelled.resolve_right hne).trans (hspelled'.resolve_right hne').symm

/-- What is stored under a spelling of a name is what is stored under the key it stands for. -/
theorem keyed?_eq_some_iff (hunique : d.keys.Nodup) : d.keyed? name = some stored ↔
    ∃ e ∈ d.entries, e.2 = stored ∧ d.StandsFor name e.1 := by
  unfold keyed?
  simp only [Option.or_eq_some_iff, get?_eq_none_iff, get?_eq_some_iff hunique]
  constructor
  · rintro (hexact | ⟨hname, hwith | ⟨-, hwithout⟩⟩)
    · exact ⟨_, hexact, rfl, .inl rfl⟩
    · exact ⟨_, hwith, rfl, .inr ⟨hname, .inl rfl⟩⟩
    · exact ⟨_, hwithout, rfl, .inr ⟨hname, .inr rfl⟩⟩
  · rintro ⟨⟨key, stored⟩, he, rfl, rfl | ⟨hname, rfl | rfl⟩⟩
    · exact .inl he
    · exact .inr ⟨hname, .inl he⟩
    · refine .inr ⟨hname, .inr ⟨fun hwith => ?_, he⟩⟩
      have hkey : withoutSigil name ∈ d.keys := List.mem_map_of_mem he
      rcases eq_or_ne (withSigil name) name with hsame | hne
      · exact hname (hsame ▸ hwith)
      · exact hname (withoutSigil_of_ne hne ▸ hkey)

/-- A name refers to the definitions of the entries that it leads to. -/
theorem find_eq_some_iff (hunique : d.keys.Nodup) :
    d.find name = .ok (some stored) ↔ ∃ e, e.2 = stored ∧ d.LeadsTo name e := by
  cases hkeyed : d.keyed? name with
  | some found =>
    rw [find_of_keyed? hkeyed]
    constructor
    · intro h
      obtain rfl := Option.some.inj (Except.ok.inj h)
      obtain ⟨e, he, hstored, hstands⟩ := (keyed?_eq_some_iff hunique).mp hkeyed
      exact ⟨e, hstored, he, .inl hstands⟩
    · rintro ⟨e, hstored, he, hstands | ⟨hnone, -⟩⟩
      · have hfound := (keyed?_eq_some_iff hunique).mpr ⟨e, he, hstored, hstands⟩
        rw [hkeyed] at hfound
        exact congrArg Except.ok hfound
      · rw [IsOnlyAlias, hkeyed] at hnone
        cases hnone
  | none =>
    rw [find_of_isOnlyAlias hkeyed, aliased_eq_some_iff]
    refine exists_congr fun e => and_congr_right fun hstored => ?_
    constructor
    · exact fun hfirst => ⟨hfirst.mem, .inr ⟨hkeyed, hfirst⟩⟩
    · rintro ⟨he, hstands | ⟨-, hfirst⟩⟩
      · have hfound := (keyed?_eq_some_iff hunique).mpr ⟨e, he, hstored, hstands⟩
        rw [hkeyed] at hfound
        cases hfound
      · exact hfirst

/-- A name leads to one entry at most. -/
theorem LeadsTo.unique (hunique : d.keys.Nodup) (h : d.LeadsTo name e) (h' : d.LeadsTo name e') :
    e = e' := by
  have hstored : ∀ {e}, e ∈ d.entries → d.StandsFor name e.1 → d.keyed? name = some e.2 :=
    fun he hstands => (keyed?_eq_some_iff hunique).mpr ⟨_, he, rfl, hstands⟩
  obtain ⟨he, hstands | ⟨hnone, hfirst⟩⟩ := h <;>
    obtain ⟨he', hstands' | ⟨hnone', hfirst'⟩⟩ := h'
  · have hkey := hstands.unique (List.mem_map_of_mem he) (List.mem_map_of_mem he') hstands'
    exact List.inj_on_of_nodup_map hunique he he' hkey
  · rw [IsOnlyAlias, hstored he hstands] at hnone'
    cases hnone'
  · rw [IsOnlyAlias, hstored he' hstands'] at hnone
    cases hnone
  · exact hfirst.unique hfirst'

end Lookup

/-- Every definition is found under its own name if its name leads to it. -/
theorem leadsBack_iff (hunique : d.keys.Nodup) :
    d.LeadsBack ↔ ∀ e ∈ d.entries, ∃ own, e.2.name = .text own ∧ d.LeadsTo own e := by
  constructor
  · intro h e he
    obtain ⟨own, hown, hfound⟩ := h.found e he
    obtain ⟨e', hsame, hleads⟩ := (find_eq_some_iff hunique).mp hfound
    obtain rfl : e' = e := by
      have : Std.Symm fun e e' : Spelling × Definition => e.2.name ≠ e'.2.name :=
        ⟨fun _ _ => Ne.symm⟩
      by_contra hne
      exact h.apart.forall hleads.1 he hne (congrArg Definition.name hsame)
    exact ⟨own, hown, hleads⟩
  · intro h
    have hfound : ∀ e ∈ d.entries, ∃ own, e.2.name = .text own ∧ d.find own = .ok (some e.2) := by
      intro e he
      obtain ⟨own, hown, hleads⟩ := h e he
      exact ⟨own, hown, (find_eq_some_iff hunique).mpr ⟨e, rfl, hleads⟩⟩
    refine ⟨hfound, ?_, ?_⟩
    · refine (List.Nodup.of_map _ hunique).imp_of_mem ?_
      intro e e' he he' hne hname
      obtain ⟨own, hown, hleads⟩ := h e he
      obtain ⟨own', hown', hleads'⟩ := h e' he'
      obtain rfl := Value.text.inj (hown.symm.trans (hname.trans hown'))
      exact hne (hleads.unique hunique hleads')
    · intro e he definition hname
      obtain ⟨own, hown, hfind⟩ := hfound e he
      unfold add knows
      rw [hname, hown]
      simp only [hfind]
      rfl

/-- Every definition is stored under its own name. -/
def IsNamed (d : Dictionary) : Prop := ∀ e ∈ d.entries, e.2.name = .text e.1

/-- A change that gives the name no value but a key, neither alone nor in an object that takes the
place of all fields. -/
def KeepsNameAs (key : Spelling) (c : Spelling × Value) : Prop :=
  (c.1 = "name" → c.2 = .text key) ∧
    ∀ m, Definition.whole? c.1 c.2 = some m → m.get? "name" = some (.text key)

/-- A call that gives a name no value but the key of its definition. -/
def Edit.KeepsName : Edit → Prop
  | .addition _ => True
  | .changes key fields => ∀ c ∈ fields, KeepsNameAs key c

/-- A field that is changed is the name, or the name stays as it is. -/
theorem name_set? {field : Spelling} {value : Value} {changed : Definition}
    (h : stored.set? field.shown value = some changed) :
    changed.name = stored.name ∨ (field = "name" ∧ changed.name = value) := by
  unfold Definition.set? at h
  split at h
  case h_1 hname =>
    obtain rfl := Option.some.inj h
    exact .inr ⟨Spelling.eq_ofString_of_shown (by decide) hname, rfl⟩
  case h_8 => cases h
  all_goals
    obtain rfl := Option.some.inj h
    exact .inl rfl

/-- A change that keeps the name leaves it at the key. -/
theorem name_give {key : Spelling} {c : Spelling × Value} {changed : Definition}
    (hname : stored.name = .text key) (hc : KeepsNameAs key c)
    (h : stored.give c.1 c.2 = .ok changed) : changed.name = .text key := by
  unfold Definition.give at h
  cases hwhole : Definition.whole? c.1 c.2 with
  | some m =>
    rw [hwhole] at h
    obtain rfl := Except.ok.inj h
    have hobject : m.getD "name" .null = .text key := by
      unfold Members.getD
      rw [hc.2 m hwhole, Option.getD_some]
    exact hobject
  | none =>
    rw [hwhole] at h
    dsimp only at h
    split at h
    · obtain rfl := Except.ok.inj h
      cases hset : stored.set? c.1.shown c.2 with
      | none => exact hname
      | some changed =>
        rcases name_set? hset with hsame | ⟨hfield, hnew⟩
        · exact hsame.trans hname
        · exact hnew.trans (hc.1 hfield)
    · cases h

/-- Changes of other fields leave the name as it is. -/
theorem name_change {key : Spelling} {fields : Members} (hname : stored.name = .text key)
    (hfields : Edit.KeepsName (.changes key fields)) :
    (change stored fields).1.name = .text key := by
  induction fields generalizing stored with
  | nil => exact hname
  | cons c fields ih =>
    obtain ⟨hc, hrest⟩ := List.forall_mem_cons.mp hfields
    unfold change
    split
    · rename_i changed hgive
      exact ih (name_give hname hc hgive) hrest
    · exact hname

/-- An edit that keeps names leaves every entry named by its key. -/
theorem IsNamed.edit (hd : d.IsNamed) {step : Edit} (hstep : step.KeepsName) :
    (d.edit step).IsNamed := by
  cases step with
  | addition definition =>
    cases hadd : d.add definition with
    | error e => simpa only [Dictionary.edit, hadd] using hd
    | ok answer =>
      rw [edit_addition hadd]
      obtain ⟨new, hname, ⟨-, hsame⟩ | ⟨-, -, hstoring⟩⟩ := of_add hadd
      · exact hsame ▸ hd
      · rw [hstoring]
        refine List.forall_mem_append.mpr ⟨hd, ?_⟩
        exact List.forall_mem_singleton.mpr hname
  | changes key fields =>
    cases hget : d.get? key with
    | none => simpa only [Dictionary.edit, update_of_get?_eq_none hget] using hd
    | some stored =>
      obtain ⟨before, after, hentries, -, hupdate⟩ := update_of_get? hget fields
      unfold IsNamed at hd ⊢
      rw [hentries, List.forall_mem_append, List.forall_mem_cons] at hd
      obtain ⟨hbefore, hname, hafter⟩ := hd
      simp only [Dictionary.edit, hupdate, List.forall_mem_append, List.forall_mem_cons]
      exact ⟨hbefore, name_change hname hstep, hafter⟩

/-- Edits that keep names leave every entry named by its key. -/
theorem IsNamed.edited (hd : d.IsNamed) {edits : List Edit} (hedits : ∀ e ∈ edits, e.KeepsName) :
    (d.edited edits).IsNamed := by
  induction edits generalizing d with
  | nil => exact hd
  | cons e edits ih =>
    obtain ⟨he, hrest⟩ := List.forall_mem_cons.mp hedits
    exact ih (hd.edit he) hrest

/-- Whatever is added to a dictionary or changed in it, every definition is found under its own name
exactly if its name leads to it, and so if no name is given a value but its key. -/
theorem leadsBack_edited_iff (h : ofDefinitions custom = .ok d) (edits : List Edit) :
    ((d.edited edits).LeadsBack ↔ ∀ e ∈ (d.edited edits).entries,
      ∃ own, e.2.name = .text own ∧ (d.edited edits).LeadsTo own e) ∧
    ((∀ e ∈ edits, e.KeepsName) → (d.edited edits).LeadsBack) := by
  have hgrown := grown_ofDefinitions custom h
  have hiff := leadsBack_iff ((extends_of_grown hgrown).edited edits).unique
  refine ⟨hiff, fun hedits => hiff.mpr fun e he => ?_⟩
  exact ⟨e.1, IsNamed.edited hgrown.name_eq hedits e he, he, .inl (.inl rfl)⟩

/-- An addition, one that is refused, one that fails, and a change that stops at a bad field. -/
theorem leadsBack_edited_branded :
    ofDefinitions [brandRed] = .ok branded ∧
      (branded.edited
        [.addition spacing, .addition (.basic "cds-red" "component" "color" "" ""),
          .addition { spacing with name := .null },
          .changes "$cds-red" [("tier", .text "foundation"), ("shade", .null)]]).LeadsBack := by
  have hbranded : ofDefinitions [brandRed] = .ok branded := rfl
  refine ⟨hbranded, (leadsBack_edited_iff hbranded _).2 ?_⟩
  have hother : ∀ {field : Spelling} {value : Value}, field ≠ "name" →
      Definition.whole? field value = none → KeepsNameAs "$cds-red" (field, value) := by
    intro field value hne hnone
    refine ⟨fun hname => absurd hname hne, fun m hwhole => ?_⟩
    rw [hnone] at hwhole
    cases hwhole
  simp only [List.forall_mem_cons, Edit.KeepsName]
  exact ⟨trivial, trivial, trivial, ⟨hother (by decide) rfl, hother (by decide) rfl, nofun⟩, nofun⟩

/-- Definitions are not all found under their own names: the name of one that is given another name
leads nowhere. -/
theorem not_forall_leadsBack : ¬∀ {custom : List Definition} {d : Dictionary} (edits : List Edit),
    ofDefinitions custom = .ok d → (d.edited edits).LeadsBack := by
  intro hleads
  let renamed := standard.edited [.changes "space-4" [("name", .text "renamed")]]
  have hstored : renamed.get? "space-4" = some
      (.basic "renamed" "foundation" "spacing" "Base Spacing" "4px spacing unit") := rfl
  have hnone : renamed.find "renamed" = .ok none := rfl
  obtain ⟨own, hown, hfound⟩ := (@hleads [] _ _ rfl).found _ (mem_of_get? hstored)
  obtain rfl := Value.text.inj hown
  rw [hnone] at hfound
  cases hfound

end Dictionary

end DesignTokens
