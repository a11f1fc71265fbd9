import DesignTokens.Proofs.Lists
import DesignTokens.Token.Dictionary

/-!
# What names refer to

A name refers to the definition stored under it, or under its other spelling with the sigil added or
removed, or else to the first definition that it is an alias of. An addition asks whether the new
name is known, but not for the other spelling of an alias. So it changes what a name refers to in
one case only: the name is nothing but an alias, and the new definition is stored under its other
spelling.
-/

namespace DesignTokens.Dictionary

/-- The dictionaries that additions make of the standard one. An addition that fails leaves the
dictionary as it is. -/
inductive Grown : Dictionary → Prop
  | standard : Grown standard
  | add {d d' : Dictionary} {definition : Definition} {added : Bool} (hd : Grown d)
    (hadd : d.add definition = .ok (added, d')) : Grown d'

/-- The definition stored under a name: as it is written, with the sigil, or without it. -/
def keyed? (d : Dictionary) (name : Spelling) : Option Definition :=
  (d.get? name).or ((d.get? (withSigil name)).or (d.get? (withoutSigil name)))

/-- No definition is stored under a spelling of a name, so that it can only be an alias. -/
def IsOnlyAlias (d : Dictionary) (name : Spelling) : Prop := d.keyed? name = none

/-- The names under which definitions are stored, in the order in which they were added. -/
def keys (d : Dictionary) : List Spelling := d.entries.map (·.1)

/-- A dictionary in which no name is stored both with the sigil and without it. -/
def IsSpelledOnce (d : Dictionary) : Prop :=
  ∀ key ∈ d.keys, withSigil key ≠ key → withSigil key ∉ d.keys

/-- A dictionary with one more definition, the last one. -/
def storing (d : Dictionary) (name : Spelling) (definition : Definition) : Dictionary :=
  ⟨d.entries ++ [(name, definition)]⟩

variable {d d' : Dictionary} {name : Spelling} {definition known : Definition} {added : Bool}

/-- What is stored under a name comes before what it is an alias of. -/
theorem find_of_keyed? (h : d.keyed? name = some known) : d.find name = .ok (some known) := by
  unfold keyed? at h
  unfold find
  cases hexact : d.get? name with
  | some found =>
    rw [hexact] at h
    exact congrArg Except.ok h
  | none =>
    cases hwith : d.get? (withSigil name) with
    | some found =>
      rw [hexact, hwith] at h
      exact congrArg Except.ok h
    | none =>
      rw [hexact, hwith, Option.none_or, Option.none_or] at h
      simp only [h]

/-- A name under which nothing is stored is looked for among the aliases. -/
theorem find_of_isOnlyAlias (h : d.IsOnlyAlias name) : d.find name = aliased name d.entries := by
  obtain ⟨hexact, hother⟩ := Option.or_eq_none_iff.mp h
  obtain ⟨hwith, hwithout⟩ := Option.or_eq_none_iff.mp hother
  unfold find
  rw [hexact, hwith, hwithout]

/-- Nothing is stored under a name that is unknown. -/
theorem keyed?_eq_none_of_find (h : d.find name = .ok none) : d.keyed? name = none := by
  cases hkeyed : d.keyed? name with
  | none => rfl
  | some found =>
    rw [find_of_keyed? hkeyed] at h
    cases h

section Additions

/-- An addition has been made if the name is unknown, and then the new definition is the last one;
otherwise nothing has changed. -/
theorem of_add (h : d.add definition = .ok (added, d')) :
    ∃ new, definition.name = .text new ∧
      ((added = false ∧ d' = d) ∨
        (added = true ∧ d.find new = .ok none ∧ d' = d.storing new definition)) := by
  cases hname : definition.name with
  | text new =>
    refine ⟨new, rfl, ?_⟩
    unfold add at h
    rw [hname] at h
    obtain ⟨found, hknows, hadded⟩ := bind_eq_ok_iff.mp h
    unfold knows at hknows
    cases hfind : d.find new with
    | error e =>
      rw [hfind] at hknows
      cases hknows
    | ok answer =>
      rw [hfind] at hknows
      obtain rfl := Except.ok.inj hknows
      cases answer with
      | some found =>
        cases hadded
        exact .inl ⟨rfl, rfl⟩
      | none =>
        cases hadded
        exact .inr ⟨rfl, rfl, rfl⟩
  | _ =>
    unfold add at h
    rw [hname] at h
    simp [Value.isKey] at h

/-- In a grown dictionary every definition is stored under its own name. -/
theorem Grown.name_eq (hd : d.Grown) : ∀ e ∈ d.entries, e.2.name = .text e.1 := by
  induction hd with
  | standard =>
    intro e he
    obtain ⟨definition, -, hdefinition⟩ := List.mem_filterMap.mp he
    obtain ⟨key, hkey, rfl⟩ := Option.map_eq_some_iff.mp hdefinition
    cases hname : definition.name with
    | text s =>
      rw [hname] at hkey
      exact congrArg Value.text (Option.some.inj hkey)
    | _ =>
      rw [hname] at hkey
      cases hkey
  | add _ hadd ih =>
    obtain ⟨new, hname, ⟨-, rfl⟩ | ⟨-, -, rfl⟩⟩ := of_add hadd
    · exact ih
    · intro e he
      rcases List.mem_append.mp he with hold | hlast
      · exact ih e hold
      · obtain rfl := List.mem_singleton.mp hlast
        exact hname

/-- What every addition keeps is kept by additions one after another. -/
theorem of_additions {P : Dictionary → Prop}
    (hstep : ∀ {d d' : Dictionary} {definition : Definition} {added : Bool}, P d →
      d.add definition = .ok (added, d') → P d') {definitions : List Definition}
    (h : definitions.foldlM (fun d definition => (d.add definition).map (·.2)) d = .ok d')
    (hd : P d) : P d' := by
  induction definitions generalizing d with
  | nil =>
    obtain rfl := Except.ok.inj h
    exact hd
  | cons first more ih =>
    rw [List.foldlM_cons] at h
    obtain ⟨next, hnext, hrest⟩ := bind_eq_ok_iff.mp h
    obtain ⟨⟨added, next⟩, hadd, rfl⟩ := map_eq_ok_iff.mp hnext
    exact ih hrest (hstep hd hadd)

/-- Dictionaries made of a list of definitions are grown. -/
theorem grown_ofDefinitions (definitions : List Definition)
    (h : ofDefinitions definitions = .ok d) : d.Grown :=
  of_additions Grown.add h .standard

end Additions

section Lookup

variable {new : Spelling}

/-- A name that begins with the sigil already is its own spelling with the sigil; every other name
is its own spelling without it. -/
theorem withoutSigil_of_ne (h : withSigil name ≠ name) : withoutSigil name = name := by
  have hhead : name.start.toList.head? ≠ some sigil := by
    intro hhead
    exact h (if_pos hhead)
  unfold withoutSigil
  split
  · rename_i c rest hlist
    rw [hlist] at hhead
    exact if_neg fun hc => hhead (congrArg some hc)
  · rfl

theorem head?_withSigil (name : Spelling) : (withSigil name).start.toList.head? = some sigil := by
  unfold withSigil
  split
  · assumption
  · rw [String.toList_ofList, List.head?_cons]

/-- A sigil that was added is the one that is removed. -/
theorem withoutSigil_withSigil (h : withSigil name ≠ name) :
    withoutSigil (withSigil name) = name := by
  have hhead : name.start.toList.head? ≠ some sigil := fun hhead => h (if_pos hhead)
  unfold withSigil
  rw [if_neg hhead]
  unfold withoutSigil
  simp

/-- What is stored under a name is in the dictionary under it. -/
theorem mem_of_get? (h : d.get? name = some known) : (name, known) ∈ d.entries := by
  obtain ⟨before, after, hentries, -⟩ := List.lookup_eq_some_iff.mp h
  rw [hentries]
  exact List.mem_append_right _ List.mem_cons_self

/-- Something is stored under the keys and under no other name. -/
theorem get?_eq_none_iff : d.get? name = none ↔ name ∉ d.keys := by
  unfold get? keys
  rw [List.lookup_eq_none_iff, List.mem_map, not_exists]
  refine forall_congr' fun e => ?_
  rw [not_and, bne_iff_ne]
  exact forall_congr' fun _ => ne_comm

@[simp] theorem keys_storing (d : Dictionary) (new : Spelling) (definition : Definition) :
    (d.storing new definition).keys = d.keys ++ [new] := by
  simp [keys, storing]

/-- A new last definition is stored under its name, if nothing was. -/
theorem get?_storing (d : Dictionary) (new : Spelling) (definition : Definition) (key : Spelling) :
    (d.storing new definition).get? key =
      (d.get? key).or (if key = new then some definition else none) := by
  unfold get? storing
  rw [List.lookup_append, List.lookup_cons, List.lookup_nil]
  by_cases hkey : key = new
  · rw [if_pos hkey, beq_iff_eq.mpr hkey]
  · rw [if_neg hkey, beq_eq_false_iff_ne.mpr hkey]

/-- What is stored under a name stays stored under it. -/
theorem keyed?_storing (definition : Definition) (hnew : d.keyed? new = none)
    (hknown : d.keyed? name = some known) :
    (d.storing new definition).keyed? name = some known := by
  have hne : name ≠ new := by
    rintro rfl
    rw [hnew] at hknown
    cases hknown
  have hexact : (d.storing new definition).get? name = d.get? name := by
    rw [get?_storing, if_neg hne, Option.or_none]
  -- The new name is not the spelling with the sigil of a name stored without it.
  have hwith : d.get? name = none → d.get? (withSigil name) = none →
      (d.storing new definition).get? (withSigil name) = none := by
    intro hnone hnone'
    rw [get?_storing, hnone', Option.none_or]
    refine if_neg fun hspelled => ?_
    have hsame := withoutSigil_of_ne (hspelled ▸ Ne.symm hne : withSigil name ≠ name)
    unfold keyed? at hknown
    rw [hsame, hnone, hnone'] at hknown
    cases hknown
  unfold keyed? at hknown ⊢
  rw [hexact]
  cases hn : d.get? name with
  | some found =>
    rw [hn] at hknown
    exact hknown
  | none =>
    rw [hn, Option.none_or] at hknown
    rw [Option.none_or]
    cases hw : d.get? (withSigil name) with
    | some found =>
      rw [hw] at hknown
      rw [get?_storing, hw]
      exact hknown
    | none =>
      rw [hw, Option.none_or] at hknown
      rw [hwith hn hw, Option.none_or, get?_storing, hknown]
      rfl

/-- A name under which nothing was stored is a spelling of the new name, or nothing is stored under
it still. -/
theorem keyed?_storing_of_isOnlyAlias (definition : Definition) (hne : name ≠ new)
    (hknown : d.IsOnlyAlias name) :
    (d.storing new definition).keyed? name =
      if new = withSigil name ∨ new = withoutSigil name then some definition else none := by
  obtain ⟨hexact, hother⟩ := Option.or_eq_none_iff.mp hknown
  obtain ⟨hwith, hwithout⟩ := Option.or_eq_none_iff.mp hother
  unfold keyed?
  rw [get?_storing, get?_storing, get?_storing, hexact, hwith, hwithout, if_neg hne]
  simp only [Option.none_or, @eq_comm _ new]
  by_cases hw : withSigil name = new
  · rw [if_pos hw, Option.some_or, if_pos (Or.inl hw)]
  · rw [if_neg hw, Option.none_or]
    simp only [hw, false_or]

/-- A name under no spelling of which anything is stored comes as a new key in one spelling. -/
theorem IsSpelledOnce.append {after : Dictionary} (hd : d.IsSpelledOnce)
    (hnew : d.keyed? new = none)
    (hkeys : after.keys = d.keys ++ [new]) : after.IsSpelledOnce := by
  obtain ⟨-, hother⟩ := Option.or_eq_none_iff.mp hnew
  obtain ⟨hwith, hwithout⟩ := Option.or_eq_none_iff.mp hother
  rw [get?_eq_none_iff] at hwith hwithout
  intro key hkey hne
  rw [hkeys, List.mem_append, List.mem_singleton] at hkey ⊢
  rintro (hstored | hspelled)
  · rcases hkey with hold | rfl
    · exact hd key hold hne hstored
    · exact hwith hstored
  · rcases hkey with hold | rfl
    · -- The new name without its sigil would be stored, and so the new name known.
      rw [← hspelled, withoutSigil_withSigil hne] at hwithout
      exact hwithout hold
    · exact hne hspelled

theorem isSpelledOnce_standard : standard.IsSpelledOnce := by
  unfold IsSpelledOnce
  decide +kernel

/-- Both spellings of a name refer to what is stored under one of them. -/
theorem IsSpelledOnce.keyed?_withSigil (hd : d.IsSpelledOnce) (hne : withSigil name ≠ name) :
    d.keyed? (withSigil name) = d.keyed? name := by
  have hwith : withSigil (withSigil name) = withSigil name := if_pos (head?_withSigil name)
  unfold keyed?
  rw [hwith, withoutSigil_withSigil hne, withoutSigil_of_ne hne]
  cases hname : d.get? name with
  | none => cases d.get? (withSigil name) <;> rfl
  | some found =>
    have hkey : name ∈ d.keys := List.mem_map_of_mem (mem_of_get? hname)
    rw [get?_eq_none_iff.mpr (hd name hkey hne)]
    rfl

/-- A definition that a name is an alias of stays the first one when others come after it. -/
theorem aliased_append {entries more : List (Spelling × Definition)}
    (h : aliased name entries = .ok (some known)) :
    aliased name (entries ++ more) = .ok (some known) := by
  induction entries with
  | nil => cases h
  | cons e entries ih =>
    unfold aliased at h
    rw [List.cons_append]
    unfold aliased
    obtain ⟨has, hhas, hrest⟩ := bind_eq_ok_iff.mp h
    rw [hhas]
    cases has with
    | true => exact hrest
    | false => exact ih hrest

/-- A definition that a name is an alias of is in the dictionary. -/
theorem exists_of_aliased {entries : List (Spelling × Definition)}
    (h : aliased name entries = .ok (some known)) : ∃ key, (key, known) ∈ entries := by
  induction entries with
  | nil => cases h
  | cons e entries ih =>
    unfold aliased at h
    obtain ⟨has, -, hrest⟩ := bind_eq_ok_iff.mp h
    cases has with
    | true =>
      cases hrest
      exact ⟨e.1, List.mem_cons_self⟩
    | false =>
      obtain ⟨key, hkey⟩ := ih hrest
      exact ⟨key, List.mem_cons_of_mem e hkey⟩

/-- What a name refers to is in the dictionary. -/
theorem mem_of_find (h : d.find name = .ok (some known)) : ∃ key, (key, known) ∈ d.entries := by
  cases hkeyed : d.keyed? name with
  | none => exact exists_of_aliased ((find_of_isOnlyAlias hkeyed).symm.trans h)
  | some found =>
    obtain rfl := Option.some.inj (Except.ok.inj ((find_of_keyed? hkeyed).symm.trans h))
    rcases Option.or_eq_some_iff.mp hkeyed with hexact | ⟨-, hother⟩
    · exact ⟨_, mem_of_get? hexact⟩
    · rcases Option.or_eq_some_iff.mp hother with hwith | ⟨-, hwithout⟩
      · exact ⟨_, mem_of_get? hwith⟩
      · exact ⟨_, mem_of_get? hwithout⟩

/-- Where every definition can be asked for an alias, the name can be looked up. -/
theorem exists_find (h : ∀ e ∈ d.entries, ∃ has, e.2.hasAlias name = .ok has) :
    ∃ answer, d.find name = .ok answer := by
  cases hkeyed : d.keyed? name with
  | some found => exact ⟨some found, find_of_keyed? hkeyed⟩
  | none =>
    rw [find_of_isOnlyAlias hkeyed]
    clear hkeyed
    obtain ⟨entries⟩ := d
    induction entries with
    | nil => exact ⟨none, rfl⟩
    | cons e entries ih =>
      obtain ⟨has, hhas⟩ := h e List.mem_cons_self
      unfold aliased
      rw [hhas]
      cases has with
      | true => exact ⟨some e.2, rfl⟩
      | false => exact ih fun other hother => h other (List.mem_cons_of_mem e hother)

/-- Something is stored under the name of every definition of a grown dictionary. -/
theorem Grown.get?_ne_none (hd : d.Grown) {key : Spelling} (h : (key, known) ∈ d.entries)
    (hname : known.name = .text new) : d.get? new ≠ none := by
  have hkey := hd.name_eq _ h
  rw [hname] at hkey
  obtain rfl : new = key := Value.text.inj hkey
  intro hnone
  exact absurd (List.lookup_eq_none_iff.mp hnone _ h) (by simp)

end Lookup

/-- After an addition a known name refers to the same definition, except where it is nothing but an
alias and the new definition is stored under its other spelling. -/
theorem find_add_eq_iff (hd : d.Grown) (hadd : d.add definition = .ok (added, d'))
    (hknown : d.find name = .ok (some known)) :
    d'.find name = .ok (some known) ↔
      ¬(added = true ∧ d.IsOnlyAlias name ∧
        (definition.name = .text (withSigil name) ∨
          definition.name = .text (withoutSigil name))) := by
  obtain ⟨new, hname, ⟨rfl, rfl⟩ | ⟨rfl, hunknown, rfl⟩⟩ := of_add hadd
  · simp [hknown]
  have hne : name ≠ new := by
    rintro rfl
    rw [hunknown] at hknown
    cases hknown
  by_cases halias : d.IsOnlyAlias name
  · have hlisted : aliased name d.entries = .ok (some known) :=
      (find_of_isOnlyAlias halias).symm.trans hknown
    have hkeyed := keyed?_storing_of_isOnlyAlias definition hne halias
    simp only [hname, Value.text.injEq, halias, true_and]
    by_cases hspelled : new = withSigil name ∨ new = withoutSigil name
    · rw [if_pos hspelled] at hkeyed
      rw [find_of_keyed? hkeyed]
      refine iff_of_false ?_ (not_not_intro hspelled)
      intro hsame
      obtain rfl := Option.some.inj (Except.ok.inj hsame)
      -- The new definition would be stored already, and its name known.
      obtain ⟨key, hmem⟩ := exists_of_aliased hlisted
      have hnone := (Option.or_eq_none_iff.mp (keyed?_eq_none_of_find hunknown)).1
      exact hd.get?_ne_none hmem hname hnone
    · rw [if_neg hspelled] at hkeyed
      rw [find_of_isOnlyAlias hkeyed]
      exact iff_of_true (aliased_append hlisted) hspelled
  · obtain ⟨found, hfound⟩ := Option.ne_none_iff_exists'.mp halias
    obtain rfl : found = known := by
      rw [find_of_keyed? hfound] at hknown
      exact Option.some.inj (Except.ok.inj hknown)
    have hkeyed := keyed?_storing definition (keyed?_eq_none_of_find hunknown) hfound
    refine iff_of_true (find_of_keyed? hkeyed) ?_
    exact fun h => halias h.2.1

/-- A definition with an alias that has the sigil. -/
def brandRed : Definition :=
  { Definition.basic "brand-red" "foundation" "color" "Brand Colors" "Brand red" with
    aliases := .texts ["$brand-red-legacy"] }

/-- The standard dictionary with that definition. -/
def branded : Dictionary := standard.storing "brand-red" brandRed

theorem grown_branded : branded.Grown :=
  grown_ofDefinitions [brandRed] rfl

/-- A definition under the alias without its sigil. -/
def brandRedLegacy : Definition :=
  .basic "brand-red-legacy" "component" "color" "Brand Colors" "Old brand red"

/-- A definition whose name is no spelling of the alias. -/
def spacing : Definition :=
  .basic "space-64" "foundation" "spacing" "Base Spacing" "64px spacing unit"

/-- The alias refers to its definition after the addition of another name. -/
theorem find_add_spacing :
    branded.Grown ∧ branded.add spacing = .ok (true, branded.storing "space-64" spacing) ∧
      branded.find "$brand-red-legacy" = .ok (some brandRed) ∧
      (branded.storing "space-64" spacing).find "$brand-red-legacy" = .ok (some brandRed) := by
  have hadd : branded.add spacing = .ok (true, branded.storing "space-64" spacing) := rfl
  have hknown : branded.find "$brand-red-legacy" = .ok (some brandRed) := rfl
  refine ⟨grown_branded, hadd, hknown, (find_add_eq_iff grown_branded hadd hknown).mpr ?_⟩
  rintro ⟨-, -, hname | hname⟩
  · exact absurd (Value.text.inj hname) (by decide)
  · exact absurd (Value.text.inj hname) (by decide)

/-- Known names do not all refer to the same definitions after an addition: the alias refers to
another one once its spelling without the sigil is stored. -/
theorem not_forall_find_add : ¬∀ {d d' : Dictionary} {definition known : Definition} {added : Bool}
    {name : Spelling}, d.Grown → d.add definition = .ok (added, d') →
      d.find name = .ok (some known) → d'.find name = .ok (some known) := by
  intro hkeeps
  have hadd : branded.add brandRedLegacy =
      .ok (true, branded.storing "brand-red-legacy" brandRedLegacy) := rfl
  have hknown : branded.find "$brand-red-legacy" = .ok (some brandRed) := rfl
  have hlater : (branded.storing "brand-red-legacy" brandRedLegacy).find "$brand-red-legacy" =
      .ok (some brandRedLegacy) := rfl
  have hsame := (hkeeps grown_branded hadd hknown).symm.trans hlater
  have hname := congrArg Definition.name (Option.some.inj (Except.ok.inj hsame))
  exact absurd (Value.text.inj hname) (by decide)

end DesignTokens.Dictionary
