import DesignTokens.Proofs.Files.Braces

/-!
# What alternatives mean

A pattern whose braces are nested reads as a term: characters and groups one after another, where a
group lists terms between its commas. A character means itself, a group what any of its alternatives
means, and a term each way to join what its parts mean. Groups are replaced from the inside, so that
the commas of inner groups are gone when an outer group is cut: a pattern stands for what its term
means. Where no group is inside another one it does so in order, the first group varying slowest.
-/

namespace DesignTokens.Braces

/-- Whether every brace is closed and was opened, given the number of braces still open. -/
def closesFrom : Nat → List Char → Bool
  | open_, [] => open_ = 0
  | open_, c :: s =>
    if c = '\x7b' then closesFrom (open_ + 1) s
    else if c = '\x7d' then open_ ≠ 0 && closesFrom (open_ - 1) s
    else closesFrom open_ s

/-- The braces of a text are nested. -/
def IsNested (s : List Char) : Prop := closesFrom 0 s = true

/-- A character that stands for itself: no brace, and no comma between the braces of a group. -/
structure IsLiteral (grouped : Bool) (c : Char) : Prop where
  noBrace : isBrace c = false
  noComma : grouped = true → c ≠ ','

mutual

/-- Characters and groups one after another, at the top or between the braces of a group. -/
inductive Term : Bool → Type
  | done {grouped : Bool} : Term grouped
  | literal {grouped : Bool} (c : Char) (hc : IsLiteral grouped c) (rest : Term grouped) :
    Term grouped
  | group {grouped : Bool} (alternatives : Alternatives) (rest : Term grouped) : Term grouped

/-- The terms between the commas of a group. -/
inductive Alternatives : Type
  | one (term : Term true)
  | more (term : Term true) (others : Alternatives)

end

mutual

/-- The pattern that a term is read from. -/
def Term.text {grouped : Bool} : Term grouped → List Char
  | .done => []
  | .literal c _ rest => c :: rest.text
  | .group alternatives rest => '\x7b' :: (alternatives.text ++ '\x7d' :: rest.text)

def Alternatives.text : Alternatives → List Char
  | .one term => term.text
  | .more term others => term.text ++ ',' :: others.text

end

mutual

/-- What a term means, in order. -/
def Term.meanings {grouped : Bool} : Term grouped → List (List Char)
  | .done => [[]]
  | .literal c _ rest => rest.meanings.map (c :: ·)
  | .group alternatives rest =>
    alternatives.meanings.flatMap fun chosen => rest.meanings.map (chosen ++ ·)

def Alternatives.meanings : Alternatives → List (List Char)
  | .one term => term.meanings
  | .more term others => term.meanings ++ others.meanings

end

/-- No group of a term is inside another one. -/
def Term.IsFlat {grouped : Bool} : Term grouped → Prop
  | .done => True
  | .literal _ _ rest => rest.IsFlat
  | .group alternatives rest => IsPlain alternatives.text ∧ rest.IsFlat

/-- A list of what a pattern stands for. -/
structure StandsFor (s : List Char) (found : List (List Char)) : Prop where
  /-- Nothing in it has a brace that is opened before one is closed. -/
  replaced : ∀ t ∈ found, ¬HasPair t
  /-- The pattern reads as a term if its braces are nested. -/
  reads : IsNested s ↔ ∃ term : Term false, term.text = s
  /-- It has what the term means. -/
  means : ∀ term : Term false, term.text = s → ∀ t, t ∈ found ↔ t ∈ term.meanings
  /-- It has this in order, if no group is inside another one. -/
  inOrder : ∀ term : Term false, term.text = s → term.IsFlat → found = term.meanings

variable {s t u before inside after option : List Char} {c : Char} {grouped : Bool}

section Nesting

/-- A plain text does not change how groups close. -/
theorem closesFrom_append_of_isPlain (hs : IsPlain s) (open_ : Nat) (t : List Char) :
    closesFrom open_ (s ++ t) = closesFrom open_ t := by
  induction s with
  | nil => rfl
  | cons c s ih =>
    obtain ⟨hc, hs⟩ := List.forall_mem_cons.mp hs
    simp only [isBrace, Bool.or_eq_false_iff, decide_eq_false_iff_not] at hc
    rw [List.cons_append, closesFrom, if_neg hc.1, if_neg hc.2]
    exact ih hs

/-- A group does not matter for what is open, wherever it stands. -/
theorem closesFrom_group (hinside : IsPlain inside) (hoption : IsPlain option) (open_ : Nat) :
    closesFrom open_ (before ++ '\x7b' :: (inside ++ '\x7d' :: after)) =
      closesFrom open_ (before ++ (option ++ after)) := by
  induction before generalizing open_ with
  | nil =>
    rw [List.nil_append, List.nil_append, closesFrom, if_pos rfl,
      closesFrom_append_of_isPlain hinside, closesFrom_append_of_isPlain hoption, closesFrom]
    simp
  | cons c before ih =>
    rw [List.cons_append, List.cons_append, closesFrom, closesFrom]
    split
    · exact ih (open_ + 1)
    · split
      · exact congrArg (_ && ·) (ih (open_ - 1))
      · exact ih open_

/-- Where the braces are nested and no pair has come yet, no brace has been closed. -/
theorem notMem_close (h : IsNested (s ++ t)) (hs : ¬HasPair s) : '\x7d' ∉ s := by
  induction s with
  | nil => exact List.not_mem_nil
  | cons c s ih =>
    rw [hasPair_cons, not_or, not_and] at hs
    unfold IsNested at h
    rw [List.cons_append, closesFrom] at h
    rw [List.mem_cons, not_or]
    by_cases hopen : c = '\x7b'
    · exact ⟨by simp [hopen], hs.1 hopen⟩
    · rw [if_neg hopen] at h
      by_cases hclose : c = '\x7d'
      · simp [hclose] at h
      · rw [if_neg hclose] at h
        exact ⟨Ne.symm hclose, ih h hs.2⟩

/-- Where no brace is closed, none is opened. -/
theorem notMem_open (hs : '\x7d' ∉ s) {open_ : Nat} (h : closesFrom open_ s = true) :
    open_ = 0 ∧ '\x7b' ∉ s := by
  induction s generalizing open_ with
  | nil => exact ⟨of_decide_eq_true h, List.not_mem_nil⟩
  | cons c s ih =>
    rw [List.mem_cons, not_or] at hs
    rw [closesFrom] at h
    by_cases hopen : c = '\x7b'
    · rw [if_pos hopen] at h
      exact absurd (ih hs.2 h).1 (Nat.succ_ne_zero open_)
    · rw [if_neg hopen, if_neg (Ne.symm hs.1)] at h
      obtain ⟨hzero, hrest⟩ := ih hs.2 h
      rw [List.mem_cons, not_or]
      exact ⟨hzero, Ne.symm hopen, hrest⟩

/-- A nested text without a pair is plain. -/
theorem IsNested.isPlain (h : IsNested s) (hs : ¬HasPair s) : IsPlain s := by
  have hclose : '\x7d' ∉ s := notMem_close ((List.append_nil s).symm ▸ h) hs
  exact isPlain_iff.mpr ⟨(notMem_open hclose h).2, hclose⟩

/-- Braces stay nested when a group is replaced. -/
theorem IsNested.replace (h : IsNested s) (hgroup : group? s = some (before, inside, after))
    (hoption : option ∈ Text.splitOn ',' inside) : IsNested (before ++ (option ++ after)) := by
  obtain ⟨hs, hinside, -⟩ := group?_eq_some_iff.mp hgroup
  unfold IsNested at h ⊢
  rwa [hs, closesFrom_group hinside (hinside.of_mem_splitOn hoption)] at h

end Nesting

section Expansions

/-- A character that opens no group stands before every expansion. -/
theorem expand_cons {s : List Char} (hc : c ≠ '\x7b') :
    expand (c :: s) = (expand s).map (c :: ·) := by
  have hgroup := group?_cons_of_ne hc s
  cases hrest : group? s with
  | none =>
    rw [hrest] at hgroup
    rw [expand_of_not_hasPair (group?_eq_none_iff.mp hgroup),
      expand_of_not_hasPair (group?_eq_none_iff.mp hrest)]
    rfl
  | some g =>
    obtain ⟨before, inside, after⟩ := g
    rw [hrest] at hgroup
    rw [expand_of_group? hgroup, expand_of_group? hrest, List.map_flatMap]
    refine List.flatMap_congr fun option hoption => ?_
    have hless := pairs_replace hrest hoption
    exact expand_cons hc
termination_by pairs s

/-- A plain text stands before every expansion. -/
theorem expand_append_of_isPlain (hu : IsPlain u) (s : List Char) :
    expand (u ++ s) = (expand s).map (u ++ ·) := by
  induction u with
  | nil => exact (List.map_id' _).symm
  | cons c u ih =>
    obtain ⟨hc, hu⟩ := List.forall_mem_cons.mp hu
    have hopen : c ≠ '\x7b' := by
      rintro rfl
      cases hc
    rw [List.cons_append, expand_cons hopen, ih hu, List.map_map]
    rfl

/-- A text whose braces are nested is expanded apart from what follows it. -/
theorem expand_append {u : List Char} (hu : IsNested u) (s : List Char) :
    expand (u ++ s) = (expand u).flatMap fun chosen => (expand s).map (chosen ++ ·) := by
  cases hgroup : group? u with
  | none =>
    have hpair := group?_eq_none_iff.mp hgroup
    rw [expand_append_of_isPlain (hu.isPlain hpair), expand_of_not_hasPair hpair,
      List.flatMap_singleton]
  | some g =>
    obtain ⟨before, inside, after⟩ := g
    obtain ⟨hu', hinside, hbefore⟩ := group?_eq_some_iff.mp hgroup
    have hlonger : group? (u ++ s) = some (before, inside, after ++ s) :=
      group?_eq_some_iff.mpr ⟨by simp [hu'], hinside, hbefore⟩
    rw [expand_of_group? hlonger, expand_of_group? hgroup, List.flatMap_assoc]
    refine List.flatMap_congr fun option hoption => ?_
    have hless := pairs_replace hgroup hoption
    rw [← expand_append (hu.replace hgroup hoption) s, List.append_assoc, List.append_assoc]
termination_by pairs u

/-- The inside of a group is expanded first, and what comes of it is cut at the commas. -/
theorem expand_group {u : List Char} (hu : IsNested u) (s : List Char) :
    expand ('\x7b' :: (u ++ '\x7d' :: s)) =
      (expand u).flatMap fun inside => (Text.splitOn ',' inside).flatMap fun chosen =>
        (expand s).map (chosen ++ ·) := by
  cases hgroup : group? u with
  | none =>
    have hpair := group?_eq_none_iff.mp hgroup
    have hplain := hu.isPlain hpair
    have hfirst : group? ('\x7b' :: (u ++ '\x7d' :: s)) = some ([], u, s) :=
      group?_eq_some_iff.mpr ⟨rfl, hplain, not_hasPair_nil⟩
    rw [expand_of_group? hfirst, expand_of_not_hasPair hpair, List.flatMap_singleton]
    refine List.flatMap_congr fun option hoption => ?_
    exact expand_append_of_isPlain (hplain.of_mem_splitOn hoption) s
  | some g =>
    obtain ⟨before, inside, after⟩ := g
    obtain ⟨hu', hinside, hbefore⟩ := group?_eq_some_iff.mp hgroup
    -- The leftmost group is inside, and the outer brace before it does not change that.
    have hinner : group? ('\x7b' :: (u ++ '\x7d' :: s)) =
        some ('\x7b' :: before, inside, after ++ '\x7d' :: s) := by
      refine group?_eq_some_iff.mpr ⟨by simp [hu'], hinside, ?_⟩
      rw [hasPair_cons, not_or, not_and]
      exact ⟨fun _ => notMem_close (hu' ▸ hu) hbefore, hbefore⟩
    rw [expand_of_group? hinner, expand_of_group? hgroup, List.flatMap_assoc]
    refine List.flatMap_congr fun option hoption => ?_
    have hless := pairs_replace hgroup hoption
    rw [← expand_group (hu.replace hgroup hoption) s, List.append_assoc, List.append_assoc]
    rfl
termination_by pairs u

/-- A pattern stands for something. -/
theorem expand_ne_nil (s : List Char) : expand s ≠ [] := by
  cases hgroup : group? s with
  | none =>
    rw [expand_of_not_hasPair (group?_eq_none_iff.mp hgroup)]
    exact List.cons_ne_nil s []
  | some g =>
    obtain ⟨before, inside, after⟩ := g
    obtain ⟨option, more, hsplit⟩ := List.exists_cons_of_ne_nil (Text.splitOn_ne_nil ',' inside)
    have hless := pairs_replace hgroup (hsplit ▸ List.mem_cons_self)
    rw [expand_of_group? hgroup, hsplit, List.flatMap_cons]
    exact List.append_ne_nil_of_left_ne_nil (expand_ne_nil _) _
termination_by pairs s

end Expansions

section Terms

mutual

/-- The braces of a term are nested. -/
theorem Term.closesFrom_text {grouped : Bool} : ∀ (term : Term grouped) (open_ : Nat)
    (s : List Char), closesFrom open_ (term.text ++ s) = closesFrom open_ s
  | .done, _, _ => rfl
  | .literal c hc rest, open_, s => by
    have hbrace := hc.noBrace
    simp only [isBrace, Bool.or_eq_false_iff, decide_eq_false_iff_not] at hbrace
    rw [Term.text, List.cons_append, closesFrom, if_neg hbrace.1, if_neg hbrace.2]
    exact rest.closesFrom_text open_ s
  | .group alternatives rest, open_, s => by
    rw [Term.text, List.cons_append, closesFrom, if_pos rfl, List.append_assoc,
      alternatives.closesFrom_text, List.cons_append, closesFrom]
    simpa using rest.closesFrom_text open_ s

/-- The text of alternatives closes all that it opens. -/
theorem Alternatives.closesFrom_text : ∀ (alternatives : Alternatives) (open_ : Nat)
    (s : List Char), closesFrom open_ (alternatives.text ++ s) = closesFrom open_ s
  | .one term, open_, s => term.closesFrom_text open_ s
  | .more term others, open_, s => by
    rw [Alternatives.text, List.append_assoc, term.closesFrom_text, List.cons_append, closesFrom,
      if_neg (by decide), if_neg (by decide)]
    exact others.closesFrom_text open_ s

end

/-- The text of a term is nested. -/
theorem Term.isNested_text (term : Term grouped) : IsNested term.text := by
  have hclosed := term.closesFrom_text 0 []
  rw [List.append_nil] at hclosed
  exact hclosed

/-- The text of alternatives is nested. -/
theorem Alternatives.isNested_text (alternatives : Alternatives) : IsNested alternatives.text := by
  have hclosed := alternatives.closesFrom_text 0 []
  rw [List.append_nil] at hclosed
  exact hclosed

mutual

/-- Between the braces of a group no term means a text with a comma. -/
theorem Term.notMem_comma {grouped : Bool} (hgrouped : grouped = true) :
    ∀ (term : Term grouped), ∀ t ∈ term.meanings, ',' ∉ t
  | .done, t, ht => by
    rw [Term.meanings, List.mem_singleton] at ht
    exact ht ▸ List.not_mem_nil
  | .literal c hc rest, t, ht => by
    rw [Term.meanings] at ht
    obtain ⟨later, hlater, rfl⟩ := List.mem_map.mp ht
    rw [List.mem_cons, not_or]
    exact ⟨Ne.symm (hc.noComma hgrouped), rest.notMem_comma hgrouped later hlater⟩
  | .group alternatives rest, t, ht => by
    rw [Term.meanings] at ht
    obtain ⟨chosen, hchosen, ht⟩ := List.mem_flatMap.mp ht
    obtain ⟨later, hlater, rfl⟩ := List.mem_map.mp ht
    rw [List.mem_append, not_or]
    exact ⟨alternatives.notMem_comma chosen hchosen, rest.notMem_comma hgrouped later hlater⟩

/-- What alternatives mean has no comma in it. -/
theorem Alternatives.notMem_comma :
    ∀ (alternatives : Alternatives), ∀ t ∈ alternatives.meanings, ',' ∉ t
  | .one term, t, ht => term.notMem_comma rfl t ht
  | .more term others, t, ht => by
    rw [Alternatives.meanings] at ht
    rcases List.mem_append.mp ht with ht | ht
    · exact term.notMem_comma rfl t ht
    · exact others.notMem_comma t ht

end

mutual

/-- A pattern stands for what its term means. -/
theorem Term.mem_expand_iff {grouped : Bool} :
    ∀ (term : Term grouped) (t : List Char), t ∈ expand term.text ↔ t ∈ term.meanings
  | .done, _ => Iff.rfl
  | .literal c hc rest, t => by
    have hopen : c ≠ '\x7b' := by
      rintro rfl
      cases hc.noBrace
    rw [Term.text, expand_cons hopen, Term.meanings, List.mem_map, List.mem_map]
    exact exists_congr fun t => and_congr_left fun _ => rest.mem_expand_iff t
  | .group alternatives rest, t => by
    rw [Term.text, expand_group alternatives.isNested_text, ← List.flatMap_assoc, Term.meanings,
      List.mem_flatMap, List.mem_flatMap]
    refine exists_congr fun chosen => and_congr ?_ ?_
    · rw [List.mem_flatMap]
      exact alternatives.mem_expand_iff chosen
    · rw [List.mem_map, List.mem_map]
      exact exists_congr fun t => and_congr_left fun _ => rest.mem_expand_iff t

/-- What the alternatives stand for, cut at the commas, is what they mean. -/
theorem Alternatives.mem_expand_iff : ∀ (alternatives : Alternatives) (t : List Char),
    (∃ inside ∈ expand alternatives.text, t ∈ Text.splitOn ',' inside) ↔
      t ∈ alternatives.meanings
  | .one term, t => by
    have hsplit : ∀ inside ∈ expand term.text, Text.splitOn ',' inside = [inside] := by
      intro inside hinside
      have hmeans := (term.mem_expand_iff inside).mp hinside
      exact Text.splitOn_of_notMem (term.notMem_comma rfl inside hmeans)
    rw [Alternatives.text, Alternatives.meanings, ← term.mem_expand_iff]
    constructor
    · rintro ⟨inside, hinside, ht⟩
      rw [hsplit inside hinside, List.mem_singleton] at ht
      exact ht ▸ hinside
    · intro ht
      exact ⟨t, ht, hsplit t ht ▸ List.mem_cons_self⟩
  | .more term others, t => by
    have hsplit : ∀ first ∈ expand term.text, ∀ rest,
        Text.splitOn ',' (first ++ ',' :: rest) = first :: Text.splitOn ',' rest := by
      intro first hfirst rest
      have hmeans := (term.mem_expand_iff first).mp hfirst
      exact Text.splitOn_append (term.notMem_comma rfl first hmeans) rest
    have hjoined : ∀ inside, inside ∈ expand (term.text ++ ',' :: others.text) ↔
        ∃ first ∈ expand term.text, ∃ rest ∈ expand others.text,
          first ++ ',' :: rest = inside := by
      intro inside
      rw [expand_append term.isNested_text, expand_cons (by decide)]
      simp only [List.mem_flatMap, List.mem_map, exists_exists_and_eq_and]
    rw [Alternatives.text, Alternatives.meanings, List.mem_append, ← term.mem_expand_iff,
      ← others.mem_expand_iff]
    simp only [hjoined]
    constructor
    · rintro ⟨inside, ⟨first, hfirst, rest, hrest, rfl⟩, ht⟩
      rw [hsplit first hfirst, List.mem_cons] at ht
      rcases ht with rfl | ht
      · exact .inl hfirst
      · exact .inr ⟨rest, hrest, ht⟩
    · -- What one alternative stands for comes with something that the others stand for.
      rintro (ht | ⟨rest, hrest, ht⟩)
      · obtain ⟨rest, hrest⟩ := List.exists_mem_of_ne_nil _ (expand_ne_nil others.text)
        exact ⟨_, ⟨t, ht, rest, hrest, rfl⟩, hsplit t ht rest ▸ List.mem_cons_self⟩
      · obtain ⟨first, hfirst⟩ := List.exists_mem_of_ne_nil _ (expand_ne_nil term.text)
        refine ⟨_, ⟨first, hfirst, rest, hrest, rfl⟩, ?_⟩
        rw [hsplit first hfirst]
        exact List.mem_cons_of_mem first ht

end

/-- Alternatives whose first one begins with more. -/
def Alternatives.onFirst (f : Term true → Term true) : Alternatives → Alternatives
  | .one term => .one (f term)
  | .more term others => .more (f term) others

/-- A change that adds a text before the first alternative adds it before all of them. -/
theorem Alternatives.text_onFirst {f : Term true → Term true}
    (hf : ∀ term, (f term).text = u ++ term.text) (alternatives : Alternatives) :
    (alternatives.onFirst f).text = u ++ alternatives.text := by
  cases alternatives with
  | one term => exact hf term
  | more term others =>
    rw [Alternatives.onFirst, Alternatives.text, Alternatives.text, hf, List.append_assoc]

/-- What stands before the brace that closes a group reads as its alternatives. -/
theorem exists_alternatives {s : List Char} {open_ : Nat} (h : closesFrom (open_ + 1) s = true) :
    ∃ (alternatives : Alternatives) (rest : List Char),
      s = alternatives.text ++ '\x7d' :: rest ∧ closesFrom open_ rest = true := by
  cases s with
  | nil => cases h
  | cons c s =>
    rw [closesFrom] at h
    by_cases hopen : c = '\x7b'
    · subst hopen
      -- The brace opens an inner group. What comes after that group reads on as alternatives.
      obtain ⟨inner, rest, rfl, hrest⟩ := exists_alternatives h
      obtain ⟨alternatives, rest, rfl, hclosed⟩ := exists_alternatives hrest
      refine ⟨alternatives.onFirst (.group inner), rest, ?_, hclosed⟩
      rw [Alternatives.text_onFirst (u := '\x7b' :: (inner.text ++ ['\x7d']))]
      · simp
      · intro term
        simp [Term.text]
    · rw [if_neg hopen] at h
      by_cases hclose : c = '\x7d'
      · subst hclose
        exact ⟨.one .done, s, rfl, by simpa using h⟩
      · rw [if_neg hclose] at h
        obtain ⟨alternatives, rest, rfl, hclosed⟩ := exists_alternatives h
        by_cases hcomma : c = ','
        · subst hcomma
          exact ⟨.more .done alternatives, rest, rfl, hclosed⟩
        · have hliteral : IsLiteral true c := ⟨by simp [isBrace, hopen, hclose], fun _ => hcomma⟩
          refine ⟨alternatives.onFirst (.literal c hliteral), rest, ?_, hclosed⟩
          rw [Alternatives.text_onFirst (u := [c]) fun _ => rfl]
          rfl
termination_by s.length

/-- A pattern whose braces are nested reads as a term. -/
theorem exists_term {s : List Char} (h : IsNested s) : ∃ term : Term false, term.text = s := by
  cases s with
  | nil => exact ⟨.done, rfl⟩
  | cons c s =>
    unfold IsNested at h
    rw [closesFrom] at h
    by_cases hopen : c = '\x7b'
    · subst hopen
      obtain ⟨alternatives, rest, rfl, hrest⟩ := exists_alternatives h
      obtain ⟨term, rfl⟩ := exists_term hrest
      exact ⟨.group alternatives term, rfl⟩
    · rw [if_neg hopen] at h
      by_cases hclose : c = '\x7d'
      · simp [hclose] at h
      · rw [if_neg hclose] at h
        obtain ⟨term, rfl⟩ := exists_term h
        exact ⟨.literal c ⟨by simp [isBrace, hopen, hclose], nofun⟩ term, rfl⟩
termination_by s.length

end Terms

section Order

/-- A term without groups means its text. -/
theorem Term.meanings_of_isPlain {grouped : Bool} :
    ∀ term : Term grouped, IsPlain term.text → term.meanings = [term.text]
  | .done, _ => rfl
  | .literal c hc rest, h => by
    rw [Term.meanings, rest.meanings_of_isPlain (List.forall_mem_cons.mp h).2]
    rfl
  | .group alternatives rest, h => by
    cases (List.forall_mem_cons.mp h).1

/-- Alternatives without groups are the texts between the commas. -/
theorem Alternatives.meanings_of_isPlain : ∀ alternatives : Alternatives,
    IsPlain alternatives.text → alternatives.meanings = Text.splitOn ',' alternatives.text
  | .one term, h => by
    have hmeans := term.meanings_of_isPlain h
    have hcomma := term.notMem_comma rfl term.text (hmeans ▸ List.mem_cons_self)
    rw [Alternatives.meanings, Alternatives.text, hmeans, Text.splitOn_of_notMem hcomma]
  | .more term others, h => by
    obtain ⟨hterm, hothers⟩ := List.forall_mem_append.mp h
    have hmeans := term.meanings_of_isPlain hterm
    have hcomma := term.notMem_comma rfl term.text (hmeans ▸ List.mem_cons_self)
    rw [Alternatives.meanings, Alternatives.text, hmeans, Text.splitOn_append hcomma,
      others.meanings_of_isPlain (List.forall_mem_cons.mp hothers).2]
    rfl

/-- A pattern without groups in groups stands for what its term means, in order. -/
theorem Term.expand_text {grouped : Bool} :
    ∀ term : Term grouped, term.IsFlat → expand term.text = term.meanings
  | .done, _ => rfl
  | .literal c hc rest, h => by
    have hopen : c ≠ '\x7b' := by
      rintro rfl
      cases hc.noBrace
    rw [Term.text, expand_cons hopen, Term.meanings, rest.expand_text h]
  | .group alternatives rest, h => by
    obtain ⟨hplain, hrest⟩ := h
    have hpair : ¬HasPair alternatives.text := by
      rintro ⟨before, inside, after, htext⟩
      refine (isPlain_iff.mp hplain).1 ?_
      rw [htext]
      exact List.mem_append_right _ List.mem_cons_self
    rw [Term.text, expand_group alternatives.isNested_text, expand_of_not_hasPair hpair,
      List.flatMap_singleton, Term.meanings, alternatives.meanings_of_isPlain hplain,
      rest.expand_text hrest]

end Order

/-- Every pattern stands for its expansions. -/
theorem standsFor_expand (s : List Char) : StandsFor s (expand s) where
  replaced _ := not_hasPair_of_mem_expand
  reads := by
    refine ⟨exists_term, ?_⟩
    rintro ⟨term, rfl⟩
    exact term.isNested_text
  means := by
    rintro term rfl
    exact term.mem_expand_iff
  inOrder := by
    rintro term rfl
    exact term.expand_text

/-- The inner group is replaced first, so the first alternative of the outer one comes twice. -/
example : expand ['\x7b', 'a', ',', '\x7b', 'b', ',', 'c', '\x7d', '\x7d'] =
    [['a'], ['b'], ['a'], ['c']] := rfl

/-- A pattern is replaced by what it stands for, whatever its braces are, as long as there is room
for its pairs of braces; otherwise it is refused. -/
theorem exists_expansions_iff [Nesting.Room] (s : List Char) :
    ((∃ found, expansions s = .ok found ∧ StandsFor s found) ↔
      pairs s ≤ Nesting.Site.expansion.limit) ∧
    (Nesting.Site.expansion.limit < pairs s → expansions s = .error (.tooDeep .groups)) := by
  unfold expansions expansionsAt
  split
  · rename_i hmany
    exact ⟨iff_of_false nofun (Nat.not_le.mpr hmany), fun _ => rfl⟩
  · rename_i hfew
    have hexpands : ∃ found, (.ok (expand s) : Except Failure _) = .ok found ∧ StandsFor s found :=
      ⟨expand s, rfl, standsFor_expand s⟩
    exact ⟨iff_of_true hexpands (Nat.not_lt.mp hfew), fun hmany => absurd hmany hfew⟩

/-- Groups of one empty alternative. -/
def emptyGroups : Nat → List Char
  | 0 => []
  | n + 1 => '\x7b' :: '\x7d' :: emptyGroups n

/-- As many empty groups have as many pairs. -/
theorem pairs_emptyGroups (n : Nat) : pairs (emptyGroups n) = n := by
  induction n with
  | zero => rfl
  | succ n ih => exact congrArg (· + 1) ih

/-- Empty groups are nested. -/
theorem isNested_emptyGroups (n : Nat) : IsNested (emptyGroups n) := by
  induction n with
  | zero => rfl
  | succ n ih => exact ih

/-- However much room there is, patterns are not all replaced, not even those whose braces are
nested: there may be more groups than the stack holds calls. -/
theorem not_forall_exists_expansions : ¬∃ _ : Nesting.Room, ∀ s, IsNested s →
    ∃ found, expansions s = .ok found ∧ StandsFor s found := by
  rintro ⟨_, hexpands⟩
  obtain ⟨found, hfound, -⟩ := hexpands _ (isNested_emptyGroups 1500)
  have hfew := (expansionsAt_eq_ok_iff.mp hfound).1
  rw [pairs_emptyGroups] at hfew
  have hroom := Nesting.Site.limit_le (s := .expansion) nofun
  exact absurd (hfew.trans hroom) (by decide)

end DesignTokens.Braces
