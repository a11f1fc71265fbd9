import DesignTokens.Files.Braces
import DesignTokens.Proofs.Text.Lines
import Mathlib.Data.List.Basic

/-!
# Replacing groups of alternatives

The leftmost group without braces inside is there as long as some opening brace comes before a
closing one. Each replacement of it takes one pair of braces away and leaves the other pairs, so the
replacements that follow one another are as many as the pairs, and what is left in the end has no
opening brace before a closing one.
-/

namespace DesignTokens.Braces

/-- An opening brace comes before a closing one. -/
def HasPair (s : List Char) : Prop :=
  ∃ before inside after, s = before ++ '\x7b' :: (inside ++ '\x7d' :: after)

/-- A text without braces. -/
def IsPlain (s : List Char) : Prop := ∀ c ∈ s, isBrace c = false

variable {s t u before inside after option : List Char} {c : Char}

section Pairs

/-- The empty text has no pair. -/
theorem not_hasPair_nil : ¬HasPair [] := by
  rintro ⟨before, inside, after, h⟩
  cases before <;> cases h

/-- A pair begins with the first character or is in the rest. -/
theorem hasPair_cons : HasPair (c :: s) ↔ (c = '\x7b' ∧ '\x7d' ∈ s) ∨ HasPair s := by
  constructor
  · rintro ⟨before, inside, after, h⟩
    cases before with
    | nil =>
      obtain ⟨rfl, rfl⟩ := List.cons.inj h
      exact .inl ⟨rfl, List.mem_append_right _ List.mem_cons_self⟩
    | cons d before =>
      obtain ⟨-, rfl⟩ := List.cons.inj h
      exact .inr ⟨before, inside, after, rfl⟩
  · rintro (⟨rfl, hclose⟩ | ⟨before, inside, after, rfl⟩)
    · obtain ⟨inside, after, rfl⟩ := List.append_of_mem hclose
      exact ⟨[], inside, after, rfl⟩
    · exact ⟨c :: before, inside, after, rfl⟩

/-- Plain texts make a plain one. -/
theorem IsPlain.append (hs : IsPlain s) (ht : IsPlain t) : IsPlain (s ++ t) :=
  List.forall_mem_append.mpr ⟨hs, ht⟩

/-- A plain text has no brace in it. -/
theorem isPlain_iff : IsPlain s ↔ '\x7b' ∉ s ∧ '\x7d' ∉ s := by
  unfold IsPlain isBrace
  constructor
  · exact fun h => ⟨fun hmem => by simpa using h _ hmem, fun hmem => by simpa using h _ hmem⟩
  · rintro ⟨hopen, hclose⟩ c hc
    have hopen' : c ≠ '\x7b' := fun heq => hopen (heq ▸ hc)
    have hclose' : c ≠ '\x7d' := fun heq => hclose (heq ▸ hc)
    simp [hopen', hclose']

/-- The alternatives in a group without braces have none either. -/
theorem IsPlain.of_mem_splitOn (h : IsPlain inside) (hoption : option ∈ Text.splitOn ',' inside) :
    IsPlain option :=
  fun c hc => h c (Text.mem_of_mem_splitOn hoption hc)

/-- Where no brace is opened before one is closed, the first brace closes. -/
theorem exists_dropWhile_eq_close (hclose : '\x7d' ∈ s) (hs : ¬HasPair s) (t : List Char) :
    ∃ rest, (s ++ t).dropWhile (fun d => !isBrace d) = '\x7d' :: rest := by
  induction s with
  | nil => cases hclose
  | cons c s ih =>
    rw [hasPair_cons, not_or, not_and] at hs
    obtain ⟨hopen, hs⟩ := hs
    by_cases hc : c = '\x7d'
    · subst hc
      exact ⟨s ++ t, rfl⟩
    · have hmem : '\x7d' ∈ s := (List.mem_cons.mp hclose).resolve_left (Ne.symm hc)
      have hbrace : isBrace c = false := by
        have hne : c ≠ '\x7b' := fun heq => hopen heq hmem
        simp [isBrace, hne, hc]
      rw [List.cons_append, List.dropWhile_cons, hbrace]
      exact ih hmem hs

/-- Where no brace is closed, the first brace opens. -/
theorem exists_dropWhile_eq_open (hclose : '\x7d' ∉ s) (t : List Char) :
    ∃ rest, (s ++ '\x7b' :: t).dropWhile (fun d => !isBrace d) = '\x7b' :: rest := by
  induction s with
  | nil => exact ⟨t, rfl⟩
  | cons c s ih =>
    rw [List.mem_cons, not_or] at hclose
    by_cases hc : c = '\x7b'
    · subst hc
      exact ⟨s ++ '\x7b' :: t, rfl⟩
    · have hbrace : isBrace c = false := by simp [isBrace, hc, Ne.symm hclose.1]
      rw [List.cons_append, List.dropWhile_cons, hbrace]
      exact ih hclose.2

end Pairs

section Groups

/-- A character that opens no group comes before it. -/
theorem group?_cons_of_ne (hc : c ≠ '\x7b') (s : List Char) :
    group? (c :: s) = (group? s).map fun g => (c :: g.1, g.2) := by
  rw [group?]
  exact if_neg hc

/-- A brace that is opened is passed over unless the next brace closes it. -/
theorem group?_open (s : List Char) :
    (∃ rest, s.dropWhile (fun d => !isBrace d) = '\x7d' :: rest ∧
      group? ('\x7b' :: s) = some ([], s.takeWhile (fun d => !isBrace d), rest)) ∨
    (∀ rest, s.dropWhile (fun d => !isBrace d) ≠ '\x7d' :: rest) ∧
      group? ('\x7b' :: s) = (group? s).map fun g => ('\x7b' :: g.1, g.2) := by
  rw [group?]
  simp only [if_true]
  split
  · rename_i rest hrest
    exact .inl ⟨rest, hrest, rfl⟩
  · rename_i hnone
    exact .inr ⟨hnone, rfl⟩

/-- A group is replaced if there is one. -/
theorem group?_eq_none_iff : group? s = none ↔ ¬HasPair s := by
  induction s with
  | nil => exact iff_of_true rfl not_hasPair_nil
  | cons c s ih =>
    rw [hasPair_cons, not_or, ← ih, not_and]
    by_cases hc : c = '\x7b'
    · subst hc
      rcases group?_open s with ⟨rest, hrest, hgroup⟩ | ⟨hnone, hgroup⟩
      · rw [hgroup]
        refine iff_of_false nofun fun h => h.1 rfl ?_
        refine (List.dropWhile_suffix fun d => !isBrace d).subset ?_
        rw [hrest]
        exact List.mem_cons_self
      · rw [hgroup, Option.map_eq_none_iff]
        refine ⟨fun h => ⟨fun _ hclose => ?_, h⟩, And.right⟩
        obtain ⟨rest, hrest⟩ := exists_dropWhile_eq_close hclose (ih.mp h) []
        rw [List.append_nil] at hrest
        exact hnone rest hrest
    · rw [group?_cons_of_ne hc, Option.map_eq_none_iff]
      exact ⟨fun h => ⟨fun heq => absurd heq hc, h⟩, And.right⟩

/-- The group that is replaced has no braces inside and no pair of braces before it. -/
theorem group?_eq_some_iff : group? s = some (before, inside, after) ↔
    s = before ++ '\x7b' :: (inside ++ '\x7d' :: after) ∧ IsPlain inside ∧ ¬HasPair before := by
  constructor
  · intro h
    induction s generalizing before with
    | nil => cases h
    | cons c s ih =>
      -- The group is found in the rest of the text.
      have hlater : ((group? s).map fun g => (c :: g.1, g.2)) = some (before, inside, after) →
          ∃ before', before = c :: before' ∧
            s = before' ++ '\x7b' :: (inside ++ '\x7d' :: after) ∧ IsPlain inside ∧
            ¬HasPair before' := by
        intro hmap
        obtain ⟨⟨before', inside', after'⟩, hgroup, heq⟩ := Option.map_eq_some_iff.mp hmap
        obtain ⟨rfl, hrest⟩ := Prod.mk.inj heq
        obtain ⟨rfl, rfl⟩ := Prod.mk.inj hrest
        exact ⟨before', rfl, ih hgroup⟩
      by_cases hc : c = '\x7b'
      · subst hc
        rcases group?_open s with ⟨rest, hrest, hgroup⟩ | ⟨hnone, hgroup⟩
        · rw [hgroup] at h
          obtain ⟨rfl, hrest'⟩ := Prod.mk.inj (Option.some.inj h)
          obtain ⟨rfl, rfl⟩ := Prod.mk.inj hrest'
          refine ⟨?_, fun c hc => by simpa using List.mem_takeWhile_imp hc, not_hasPair_nil⟩
          rw [← hrest, List.takeWhile_append_dropWhile]
          rfl
        · rw [hgroup] at h
          obtain ⟨before, rfl, rfl, hinside, hbefore⟩ := hlater h
          refine ⟨rfl, hinside, ?_⟩
          rw [hasPair_cons, not_or, not_and]
          refine ⟨fun _ hclose => ?_, hbefore⟩
          obtain ⟨rest, hrest⟩ := exists_dropWhile_eq_close hclose hbefore
            ('\x7b' :: (inside ++ '\x7d' :: after))
          exact hnone rest hrest
      · rw [group?_cons_of_ne hc] at h
        obtain ⟨before, rfl, rfl, hinside, hbefore⟩ := hlater h
        refine ⟨rfl, hinside, ?_⟩
        rw [hasPair_cons, not_or, not_and]
        exact ⟨fun heq => absurd heq hc, hbefore⟩
  · rintro ⟨rfl, hinside, hbefore⟩
    have hplain : ∀ c ∈ inside, (!isBrace c) = true := fun c hc => by rw [hinside c hc]; rfl
    induction before with
    | nil =>
      have hclose : (inside ++ '\x7d' :: after).dropWhile (fun d => !isBrace d) = '\x7d' :: after :=
        List.dropWhile_append_of_pos hplain
      have hinside : (inside ++ '\x7d' :: after).takeWhile (fun d => !isBrace d) = inside := by
        rw [List.takeWhile_append_of_pos hplain]
        exact List.append_nil inside
      rcases group?_open (inside ++ '\x7d' :: after) with ⟨rest, hrest, hgroup⟩ | ⟨hnone, -⟩
      · rw [List.nil_append, hgroup, hinside, ← (List.cons.inj (hclose.symm.trans hrest)).2]
      · exact absurd hclose (hnone after)
    | cons c before ih =>
      rw [hasPair_cons, not_or, not_and] at hbefore
      have hrest := ih hbefore.2
      by_cases hc : c = '\x7b'
      · subst hc
        obtain ⟨rest, hopen⟩ := exists_dropWhile_eq_open (hbefore.1 rfl) (inside ++ '\x7d' :: after)
        rcases group?_open (before ++ '\x7b' :: (inside ++ '\x7d' :: after)) with
          ⟨rest', hclose, -⟩ | ⟨-, hgroup⟩
        · rw [hopen] at hclose
          exact absurd (List.cons.inj hclose).1 (by decide)
        · rw [List.cons_append, hgroup, hrest]
          rfl
      · rw [List.cons_append, group?_cons_of_ne hc, hrest]
        rfl

end Groups

section Replacements

/-- Where nothing closes there is no pair. -/
theorem pairsFrom_of_notMem (h : '\x7d' ∉ s) (open_ : Nat) : pairsFrom open_ s = 0 := by
  induction s generalizing open_ with
  | nil => rfl
  | cons c s ih =>
    have hc : c ≠ '\x7d' := fun heq => h (heq ▸ List.mem_cons_self)
    have hs := ih fun hmem => h (List.mem_cons_of_mem c hmem)
    simp [pairsFrom, hc, hs]

/-- A plain text before others has no pair. -/
theorem pairsFrom_append_of_isPlain (hs : IsPlain s) (open_ : Nat) (t : List Char) :
    pairsFrom open_ (s ++ t) = pairsFrom open_ t := by
  induction s with
  | nil => rfl
  | cons c s ih =>
    obtain ⟨hc, hs⟩ := List.forall_mem_cons.mp hs
    simp only [isBrace, Bool.or_eq_false_iff, decide_eq_false_iff_not] at hc
    rw [List.cons_append, pairsFrom, if_neg hc.1, if_neg (by simp [hc.2])]
    exact ih hs

/-- A group counts as one pair, wherever it stands. -/
theorem pairsFrom_group (hinside : IsPlain inside) (hoption : IsPlain option) (open_ : Nat) :
    pairsFrom open_ (before ++ '\x7b' :: (inside ++ '\x7d' :: after)) =
      pairsFrom open_ (before ++ (option ++ after)) + 1 := by
  induction before generalizing open_ with
  | nil =>
    rw [List.nil_append, List.nil_append, pairsFrom, if_pos rfl,
      pairsFrom_append_of_isPlain hinside, pairsFrom_append_of_isPlain hoption, pairsFrom]
    simp
  | cons c before ih =>
    rw [List.cons_append, List.cons_append, pairsFrom, pairsFrom]
    split
    · exact ih (open_ + 1)
    · split
      · exact congrArg (· + 1) (ih (open_ - 1))
      · exact ih open_

/-- A replacement takes one pair away. -/
theorem pairs_replace (hgroup : group? s = some (before, inside, after))
    (hoption : option ∈ Text.splitOn ',' inside) :
    pairs (before ++ (option ++ after)) + 1 = pairs s := by
  obtain ⟨rfl, hinside, -⟩ := group?_eq_some_iff.mp hgroup
  exact (pairsFrom_group hinside (hinside.of_mem_splitOn hoption) 0).symm

/-- Without an opening brace before a closing one there are no pairs. -/
theorem pairs_eq_zero (hs : ¬HasPair s) : pairs s = 0 := by
  induction s with
  | nil => rfl
  | cons c s ih =>
    rw [hasPair_cons, not_or, not_and] at hs
    unfold pairs
    rw [pairsFrom]
    split
    · rename_i hc
      exact pairsFrom_of_notMem (hs.1 hc) 1
    · simpa [pairs] using ih hs.2

/-- Where a group is replaced there are pairs. -/
theorem exists_pairs_eq_succ (hgroup : group? s = some (before, inside, after)) :
    ∃ n, pairs s = n + 1 := by
  obtain ⟨option, more, hsplit⟩ := List.exists_cons_of_ne_nil (Text.splitOn_ne_nil ',' inside)
  exact ⟨_, (pairs_replace hgroup (hsplit ▸ List.mem_cons_self)).symm⟩

/-- There are no more pairs than braces that close. -/
theorem pairsFrom_le_count (open_ : Nat) (s : List Char) : pairsFrom open_ s ≤ s.count '\x7d' := by
  induction s generalizing open_ with
  | nil => exact Nat.le_refl 0
  | cons c s ih =>
    rw [pairsFrom]
    split
    · exact (ih _).trans List.count_le_count_cons
    · split
      · rename_i hc
        obtain ⟨hc, -⟩ := Bool.and_eq_true_iff.mp hc
        rw [of_decide_eq_true hc, List.count_cons_self]
        exact Nat.succ_le_succ (ih _)
      · exact (ih _).trans List.count_le_count_cons

/-- With as much fuel as there are pairs all groups are replaced. -/
theorem expandFrom_eq {fuel fuel' : Nat} (h : pairs s ≤ fuel) (h' : pairs s ≤ fuel') :
    expandFrom fuel s = expandFrom fuel' s := by
  induction fuel generalizing s fuel' with
  | zero =>
    cases hgroup : group? s with
    | none => cases fuel' <;> simp only [expandFrom, hgroup]
    | some g =>
      obtain ⟨n, hpairs⟩ := exists_pairs_eq_succ hgroup
      omega
  | succ fuel ih =>
    cases hgroup : group? s with
    | none => cases fuel' <;> simp only [expandFrom, hgroup]
    | some g =>
      obtain ⟨before, inside, after⟩ := g
      obtain ⟨n, hpairs⟩ := exists_pairs_eq_succ hgroup
      obtain ⟨fuel', rfl⟩ := Nat.exists_eq_succ_of_ne_zero (by omega : fuel' ≠ 0)
      simp only [expandFrom, hgroup]
      refine List.flatMap_congr fun option hoption => ?_
      have hless := pairs_replace hgroup hoption
      rw [List.append_assoc]
      exact ih (by omega) (by omega)

/-- A pattern is expanded if there is room for its pairs. -/
theorem expansionsAt_eq_ok_iff [Nesting.Room] {site : Nesting.Site} {found : List (List Char)} :
    expansionsAt site s = .ok found ↔ pairs s ≤ site.limit ∧ expand s = found := by
  unfold expansionsAt
  split
  · rename_i hmany
    exact iff_of_false nofun fun h => absurd hmany (Nat.not_lt.mpr h.1)
  · rename_i hfew
    rw [Except.ok.injEq, and_iff_right (Nat.not_lt.mp hfew)]

/-- A pattern without a group stands for itself. -/
theorem expand_of_not_hasPair (hs : ¬HasPair s) : expand s = [s] := by
  unfold expand
  rw [expandFrom_eq (pairsFrom_le_count 0 s) (Nat.le_refl _), pairs_eq_zero hs]
  rfl

/-- The first group is replaced by each of its alternatives in turn. -/
theorem expand_of_group? (hgroup : group? s = some (before, inside, after)) :
    expand s = (Text.splitOn ',' inside).flatMap fun option =>
      expand (before ++ (option ++ after)) := by
  obtain ⟨n, hn⟩ := exists_pairs_eq_succ hgroup
  unfold expand
  rw [expandFrom_eq (pairsFrom_le_count 0 s) (Nat.le_refl _), hn]
  simp only [expandFrom, hgroup]
  refine List.flatMap_congr fun option hoption => ?_
  have hless := pairs_replace hgroup hoption
  rw [List.append_assoc]
  exact expandFrom_eq (by omega) (pairsFrom_le_count 0 _)

/-- In what a pattern stands for no brace is opened before one is closed. -/
theorem not_hasPair_of_mem_expand {s t : List Char} (h : t ∈ expand s) : ¬HasPair t := by
  cases hgroup : group? s with
  | none =>
    have hs := group?_eq_none_iff.mp hgroup
    rw [expand_of_not_hasPair hs, List.mem_singleton] at h
    exact h ▸ hs
  | some g =>
    obtain ⟨before, inside, after⟩ := g
    rw [expand_of_group? hgroup] at h
    obtain ⟨option, hoption, ht⟩ := List.mem_flatMap.mp h
    have hless := pairs_replace hgroup hoption
    exact not_hasPair_of_mem_expand ht
termination_by pairs s

end Replacements

end DesignTokens.Braces
