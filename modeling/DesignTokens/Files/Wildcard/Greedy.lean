import DesignTokens.Files.Wildcard

/-!
# Matching without going back

A run between two stars is put at the first place where it fits. Main statement: this finds a match
whenever trying every place would (`isMatch_eq_matchesItems`), because the first place leaves the
most text for what follows.
-/

namespace DesignTokens.Wildcard

/-- Whether runs with stars between them match a whole text, where every place is tried for each. -/
def tries : List (List (Char → Bool)) → List Char → Bool
  | [], _ => false
  | [run], s => isRun run s
  | run :: next :: further, s =>
    match afterRun run s with
    | some rest => anySuffix (tries (next :: further)) rest
    | none => false

/-- There is always a run before the first star, perhaps an empty one. -/
theorem runs_ne_nil (is : List Item) : runs is ≠ [] := by
  cases is with
  | nil => simp [runs]
  | cons i rest =>
    cases i with
    | star => simp [runs]
    | one holds => simp only [runs]; split <;> simp

/-- Stars split the parts into runs, and nothing else about them counts. -/
theorem matchesItems_eq_tries (is : List Item) (s : List Char) :
    matchesItems is s = tries (runs is) s := by
  induction is generalizing s with
  | nil => cases s <;> simp [matchesItems, runs, tries, isRun, afterRun]
  | cons i rest ih =>
    cases i with
    | star =>
      cases h : runs rest with
      | nil => exact absurd h (runs_ne_nil rest)
      | cons run further =>
        have e : matchesItems rest = tries (run :: further) := by
          funext t; rw [ih, h]
        simp [matchesItems, runs, h, tries, afterRun, e]
    | one holds =>
      cases h : runs rest with
      | nil => exact absurd h (runs_ne_nil rest)
      | cons run further =>
        cases s with
        | nil => cases further <;> simp [matchesItems, runs, h, tries, isRun, afterRun]
        | cons c s =>
          have e := ih s
          rw [h] at e
          cases further <;> by_cases hc : holds c <;>
            simp_all [matchesItems, runs, tries, isRun, afterRun]

/-- `anySuffix` looks at the ends of a text. -/
theorem anySuffix_iff {p : List Char → Bool} {s : List Char} :
    anySuffix p s = true ↔ ∃ t, t <:+ s ∧ p t = true := by
  induction s with
  | nil => simp [anySuffix]
  | cons c s ih =>
    simp only [anySuffix, Bool.or_eq_true, ih, List.suffix_cons_iff]
    constructor
    · rintro (h | ⟨t, ht, hp⟩)
      · exact ⟨_, .inl rfl, h⟩
      · exact ⟨t, .inr ht, hp⟩
    · rintro ⟨t, rfl | ht, hp⟩
      · exact .inl hp
      · exact .inr ⟨t, ht, hp⟩

/-- A run takes as many characters as it has classes. -/
theorem eq_append_of_afterRun {run : List (Char → Bool)} {s rest : List Char}
    (h : afterRun run s = some rest) : ∃ t, s = t ++ rest ∧ t.length = run.length := by
  induction run generalizing s with
  | nil => exact ⟨[], by simpa [afterRun] using h, rfl⟩
  | cons holds run ih =>
    cases s with
    | nil => simp [afterRun] at h
    | cons c s =>
      by_cases hc : holds c
      · obtain ⟨t, rfl, ht⟩ := ih (by simpa [afterRun, hc] using h)
        exact ⟨c :: t, rfl, by simp [ht]⟩
      · simp [afterRun, hc] at h

/-- A text is a run if the run leaves nothing of it. -/
theorem isRun_iff {run : List (Char → Bool)} {s : List Char} :
    isRun run s = true ↔ afterRun run s = some [] := by
  unfold isRun
  split <;> simp_all

/-- The last run can only be at the very end. -/
theorem isRun_drop {run : List (Char → Bool)} {s : List Char} :
    isRun run (s.drop (s.length - run.length)) = anySuffix (isRun run) s := by
  rw [Bool.eq_iff_iff, anySuffix_iff]
  constructor
  · exact fun h => ⟨_, List.drop_suffix .., h⟩
  · rintro ⟨t, ⟨u, rfl⟩, h⟩
    obtain ⟨v, hv, hl⟩ := eq_append_of_afterRun (isRun_iff.1 h)
    have : t.length = run.length := by rw [hv, List.append_nil, hl]
    simpa [← this] using h

/-- There is no first place exactly if there is no place. -/
theorem afterFirst_eq_none_iff {run : List (Char → Bool)} {s : List Char} :
    afterFirst run s = none ↔ ∀ t, t <:+ s → afterRun run t = none := by
  induction s with
  | nil => simp [afterFirst]
  | cons c s ih =>
    simp only [afterFirst, List.suffix_cons_iff]
    split
    · next h => simp only [reduceCtorEq, false_iff]; intro hn; rw [hn _ (.inl rfl)] at h; cases h
    · next h =>
      rw [ih]
      constructor
      · rintro hs t (rfl | ht)
        · exact h
        · exact hs t ht
      · exact fun hs t ht => hs t (.inr ht)

/-- No place leaves more text than the first one. -/
theorem suffix_of_afterFirst {run : List (Char → Bool)} {s first t rest : List Char}
    (h : afterFirst run s = some first) (ht : t <:+ s) (hr : afterRun run t = some rest) :
    rest <:+ first := by
  induction s with
  | nil =>
    rw [List.suffix_nil] at ht
    subst ht
    rw [afterFirst, hr] at h
    cases h
    exact List.suffix_rfl
  | cons c s ih =>
    rw [afterFirst] at h
    split at h
    · next he =>
      cases h
      obtain ⟨u, hu, hul⟩ := eq_append_of_afterRun he
      obtain ⟨v, hv, hvl⟩ := eq_append_of_afterRun hr
      have hs : rest <:+ t := ⟨v, hv.symm⟩
      have hf : first <:+ c :: s := ⟨u, hu.symm⟩
      have l₁ := congrArg List.length hu
      have l₂ := congrArg List.length hv
      have l₃ := ht.length_le
      simp only [List.length_append] at l₁ l₂
      exact List.suffix_of_suffix_length_le (hs.trans ht) hf (by omega)
    · next he =>
      rcases List.suffix_cons_iff.1 ht with rfl | ht
      · rw [he] at hr; cases hr
      · exact ih h ht

/-- The first place is a place. -/
theorem exists_of_afterFirst {run : List (Char → Bool)} {s first : List Char}
    (h : afterFirst run s = some first) : ∃ t, t <:+ s ∧ afterRun run t = some first := by
  induction s with
  | nil => exact ⟨[], List.suffix_rfl, h⟩
  | cons c s ih =>
    rw [afterFirst] at h
    split at h
    · next he => cases h; exact ⟨_, List.suffix_rfl, he⟩
    · next he =>
      obtain ⟨t, ht, hr⟩ := ih h
      exact ⟨t, ht.trans (List.suffix_cons ..), hr⟩

/-- What holds of an end of a text's end holds of an end of the text. -/
theorem anySuffix_mono {p : List Char → Bool} {s t : List Char} (ht : t <:+ s)
    (h : anySuffix p t = true) : anySuffix p s = true := by
  obtain ⟨u, hu, hp⟩ := anySuffix_iff.1 h
  exact anySuffix_iff.2 ⟨u, hu.trans ht, hp⟩

/-- Taking first places only loses nothing after a star. -/
theorem matchesAnywhere_eq (rs : List (List (Char → Bool))) (s : List Char) (h : rs ≠ []) :
    matchesAnywhere rs s = anySuffix (tries rs) s := by
  fun_induction matchesAnywhere rs s with
  | case1 => exact absurd rfl h
  | case2 s run => exact isRun_drop
  | case3 run next further s rest hr ih =>
    rw [ih (by simp), Bool.eq_iff_iff]
    constructor
    · intro ha
      obtain ⟨t, ht, he⟩ := exists_of_afterFirst hr
      exact anySuffix_iff.2 ⟨t, ht, by simpa [tries, he] using ha⟩
    · intro ha
      obtain ⟨t, ht, hp⟩ := anySuffix_iff.1 ha
      simp only [tries] at hp
      split at hp
      · next u hu => exact anySuffix_mono (suffix_of_afterFirst hr ht hu) hp
      · cases hp
  | case4 run next further s hr =>
    symm
    rw [Bool.eq_false_iff]
    intro ha
    obtain ⟨t, ht, hp⟩ := anySuffix_iff.1 ha
    simp [tries, afterFirst_eq_none_iff.1 hr t ht] at hp

/-- Taking first places only loses nothing. -/
theorem matchesRuns_eq_tries (rs : List (List (Char → Bool))) (s : List Char) :
    matchesRuns rs s = tries rs s := by
  fun_cases matchesRuns rs s with
  | case1 => rfl
  | case2 => rfl
  | case3 s run next further rest hr =>
    simp [tries, hr, matchesAnywhere_eq]
  | case4 s run next further hr => simp [tries, hr]

/-- A pattern matches exactly the texts that its parts match when every place is tried. -/
theorem isMatch_eq_matchesItems (pattern text : List Char) :
    isMatch pattern text = matchesItems (items pattern) text := by
  rw [isMatch, matchesRuns_eq_tries, matchesItems_eq_tries]

end DesignTokens.Wildcard
