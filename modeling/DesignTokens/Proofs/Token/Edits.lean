import DesignTokens.Proofs.Token.Dictionary

/-!
# Dictionaries under additions and changes

A dictionary is made of custom definitions and edited by calls that may be refused or fail. No call
takes a key away: an addition brings a key whose other spelling is not a key, or nothing, and a
change works on the definition under a key. So both spellings of a name keep one entry between
them, and those of the built-in names keep theirs.
-/

namespace DesignTokens.Dictionary

/-- A call that may change a dictionary. -/
inductive Edit where
  | addition (definition : Definition)
  | changes (key : Spelling) (fields : Members)

/-- The dictionary after a call. An addition that is refused or fails leaves it as it is, and a
change that fails keeps the fields that were changed before the bad one. -/
def edit (d : Dictionary) : Edit → Dictionary
  | .addition definition =>
    match d.add definition with
    | .ok answer => answer.2
    | .error _ => d
  | .changes key fields => (d.update key fields).1

/-- The dictionary after calls one after another. -/
def edited (d : Dictionary) (edits : List Edit) : Dictionary := edits.foldl edit d

/-- A name that does not begin with the sigil. -/
def IsBare (name : Spelling) : Prop := name.start.toList.head? ≠ some sigil

instance (name : Spelling) : Decidable (IsBare name) :=
  inferInstanceAs (Decidable (_ ≠ _))

/-- A dictionary in which the two spellings of a name have one entry between them. -/
structure IsConsistent (d : Dictionary) : Prop where
  /-- No key comes twice. -/
  unique : d.keys.Nodup
  /-- Of the two spellings of a name at most one is a key. -/
  once (name : Spelling) : IsBare name → ¬(name ∈ d.keys ∧ withSigil name ∈ d.keys)
  /-- Both spellings of a name refer to what is stored under one of them. -/
  resolves (name : Spelling) (stored : Definition) : IsBare name →
    d.get? name = some stored ∨ d.get? (withSigil name) = some stored →
      d.find name = .ok (some stored) ∧ d.find (withSigil name) = .ok (some stored)
  /-- Both spellings of a built-in name refer to what is stored under it. -/
  builtin : ∀ key ∈ standard.keys, ∃ stored, d.get? key = some stored ∧
    d.find (withSigil key) = .ok (some stored) ∧ d.find (withoutSigil key) = .ok (some stored)

variable {d d' : Dictionary} {name new : Spelling} {definition stored : Definition} {added : Bool}

section Spellings

/-- A sigil changes a name that has none. -/
theorem withSigil_ne_iff : withSigil name ≠ name ↔ IsBare name := by
  refine ⟨fun hne hhead => hne (if_pos hhead), fun hbare hsame => hbare ?_⟩
  rw [← hsame, head?_withSigil]

/-- A name is one of the two spellings of what is left of it without the sigil. -/
theorem eq_withoutSigil_or (h : IsBare (withoutSigil name)) :
    name = withoutSigil name ∨ name = withSigil (withoutSigil name) := by
  by_cases hbare : IsBare name
  · exact .inl (withoutSigil_of_ne (withSigil_ne_iff.mpr hbare)).symm
  · right
    obtain ⟨rest, hlist⟩ := List.head?_eq_some_iff.mp (not_not.mp hbare)
    unfold withSigil
    rw [if_neg h]
    unfold withoutSigil
    rw [hlist]
    obtain ⟨start, more⟩ := name
    simp only [if_true, String.toList_ofList]
    rw [← hlist, String.ofList_toList]

/-- The built-in names have one sigil at most. -/
theorem isBare_of_mem_standard : ∀ key ∈ standard.keys, IsBare (withoutSigil key) := by
  decide +kernel

end Spellings

section Keys

/-- To replace a definition leaves the keys. -/
theorem keys_replace (key : Spelling) (definition : Definition)
    (entries : List (Spelling × Definition)) :
    (replace key definition entries).map (·.1) = entries.map (·.1) := by
  induction entries with
  | nil => rfl
  | cons e entries ih =>
    unfold replace
    split
    · rfl
    · exact congrArg (e.1 :: ·) ih

/-- A change takes no key away and brings none. -/
@[simp] theorem keys_update (d : Dictionary) (key : Spelling) (fields : Members) :
    (d.update key fields).1.keys = d.keys := by
  unfold update
  split
  · rfl
  · exact keys_replace _ _ _

/-- An addition that does not fail gives the dictionary that it leaves. -/
theorem edit_addition (h : d.add definition = .ok (added, d')) :
    d.edit (.addition definition) = d' := by
  simp only [edit, h]

/-- A call leaves the keys as they are, or brings one under no spelling of which anything was
stored. -/
theorem keys_edit (d : Dictionary) (e : Edit) :
    (d.edit e).keys = d.keys ∨
      ∃ new, d.keyed? new = none ∧ (d.edit e).keys = d.keys ++ [new] := by
  cases e with
  | changes key fields => exact .inl (keys_update d key fields)
  | addition definition =>
    cases hadd : d.add definition with
    | error e =>
      left
      simp only [edit, hadd]
    | ok answer =>
      rw [edit_addition hadd]
      obtain ⟨new, -, ⟨-, hsame⟩ | ⟨-, hunknown, hstoring⟩⟩ := of_add hadd
      · exact .inl (congrArg keys hsame)
      · refine .inr ⟨new, keyed?_eq_none_of_find hunknown, ?_⟩
        rw [hstoring, keys_storing]

/-- Every key has a definition. -/
theorem exists_get?_of_mem_keys (h : name ∈ d.keys) : ∃ stored, d.get? name = some stored :=
  Option.ne_none_iff_exists'.mp fun hnone => get?_eq_none_iff.mp hnone h

/-- What one call keeps: the keys that are there, each of them once and in one spelling. -/
structure Extends (base d : Dictionary) : Prop where
  subset : base.keys ⊆ d.keys
  unique : d.keys.Nodup
  spelledOnce : d.IsSpelledOnce

/-- A dictionary that is edited still extends the one it extended. -/
theorem Extends.edit {base : Dictionary} (h : base.Extends d) (e : Edit) :
    base.Extends (d.edit e) := by
  rcases keys_edit d e with hsame | ⟨new, hnew, hkeys⟩
  · refine ⟨?_, ?_, ?_⟩
    · rw [hsame]
      exact h.subset
    · rw [hsame]
      exact h.unique
    · unfold IsSpelledOnce
      rw [hsame]
      exact h.spelledOnce
  · have hexact : new ∉ d.keys := get?_eq_none_iff.mp (Option.or_eq_none_iff.mp hnew).1
    refine ⟨?_, ?_, h.spelledOnce.append hnew hkeys⟩
    · rw [hkeys]
      exact List.subset_append_of_subset_left _ h.subset
    · rw [hkeys]
      refine List.nodup_append.mpr ⟨h.unique, List.nodup_singleton new, ?_⟩
      rintro key hkey last hlast rfl
      exact hexact (List.mem_singleton.mp hlast ▸ hkey)

/-- A dictionary that is edited several times still extends the one it extended. -/
theorem Extends.edited {base : Dictionary} (h : base.Extends d) (edits : List Edit) :
    base.Extends (d.edited edits) := by
  induction edits generalizing d with
  | nil => exact h
  | cons e edits ih => exact ih (h.edit e)

theorem extends_standard : standard.Extends standard :=
  ⟨List.Subset.refl _, by decide +kernel, isSpelledOnce_standard⟩

/-- A dictionary that is grown extends the standard one. -/
theorem extends_of_grown (hd : d.Grown) : standard.Extends d := by
  induction hd with
  | standard => exact extends_standard
  | add _ hadd ih =>
    rw [← edit_addition hadd]
    exact ih.edit _

end Keys

/-- Where the two spellings of a name are not both keys, they have one entry between them. -/
theorem IsSpelledOnce.find_eq (hd : d.IsSpelledOnce) (hbare : IsBare name)
    (h : d.get? name = some stored ∨ d.get? (withSigil name) = some stored) :
    d.find name = .ok (some stored) ∧ d.find (withSigil name) = .ok (some stored) := by
  have hne := withSigil_ne_iff.mpr hbare
  have hkeyed : d.keyed? name = some stored := by
    unfold keyed?
    rcases h with hname | hwith
    · rw [hname, Option.some_or]
    · have hnone : d.get? name = none := by
        refine get?_eq_none_iff.mpr fun hkey => hd name hkey hne ?_
        exact List.mem_map_of_mem (mem_of_get? hwith)
      rw [hnone, hwith, Option.none_or, Option.some_or]
  exact ⟨find_of_keyed? hkeyed, find_of_keyed? ((hd.keyed?_withSigil hne).trans hkeyed)⟩

/-- What extends the standard dictionary is consistent. -/
theorem Extends.isConsistent (h : standard.Extends d) : d.IsConsistent where
  unique := h.unique
  once name hbare hboth := h.spelledOnce name hboth.1 (withSigil_ne_iff.mpr hbare) hboth.2
  resolves _ _ hbare hstored := h.spelledOnce.find_eq hbare hstored
  builtin key hkey := by
    obtain ⟨stored, hstored⟩ := exists_get?_of_mem_keys (h.subset hkey)
    have hbare := isBare_of_mem_standard key hkey
    rcases eq_withoutSigil_or hbare with hsame | hwith
    · rw [hsame] at hstored
      obtain ⟨hfind, hfind'⟩ := h.spelledOnce.find_eq hbare (.inl hstored)
      exact ⟨stored, hsame ▸ hstored, hsame ▸ hfind', hfind⟩
    · rw [hwith] at hstored
      obtain ⟨hfind, hfind'⟩ := h.spelledOnce.find_eq hbare (.inr hstored)
      refine ⟨stored, hwith ▸ hstored, ?_, hfind⟩
      have hhead : withSigil key = key := by
        rw [hwith]
        exact if_pos (head?_withSigil _)
      rw [hhead, hwith]
      exact hfind'

/-- Whatever is added to a dictionary or changed in it, with success or without, the two spellings
of a name have one entry between them, and those of a built-in name the built-in entry. -/
theorem isConsistent_edited {custom : List Definition} (h : ofDefinitions custom = .ok d)
    (edits : List Edit) : (d.edited edits).IsConsistent :=
  ((extends_of_grown (grown_ofDefinitions custom h)).edited edits).isConsistent

/-- An addition, one that is refused, one that fails, and a change that stops at a bad field. -/
theorem isConsistent_edited_branded :
    ofDefinitions [brandRed] = .ok branded ∧
      (branded.edited
        [.addition spacing, .addition (.basic "cds-red" "component" "color" "" ""),
          .addition { spacing with name := .null },
          .changes "$cds-red" [("tier", .text "foundation"), ("shade", .null)]]).IsConsistent := by
  have hbranded : ofDefinitions [brandRed] = .ok branded := rfl
  exact ⟨hbranded, isConsistent_edited hbranded _⟩

end DesignTokens.Dictionary
