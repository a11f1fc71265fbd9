import DesignTokens.Proofs.Files.Alternatives
import DesignTokens.Proofs.Files.Exact
import Mathlib.Data.Set.Basic

/-!
# Exclude patterns by their meanings

A path is judged by the patterns one after another, and each by the texts that it stands for. A text
that begins with any directory matches a path from its beginning or from behind one of its slashes.
A pattern with too many pairs of braces has no answer, unless one before it has matched: but for
such patterns the answer depends on nothing but the set of all texts that the patterns stand for.
-/

namespace DesignTokens

/-- The pattern for what a pattern matches in any directory. -/
def Spelling.everywhere (s : Spelling) : Spelling :=
  { s with start := String.ofList Wildcard.anyDirectory ++ s.start }

namespace Wildcard

variable {path rest t : List Char} {patterns others : List Spelling} {p : Spelling} {b : Bool}
  {e : Failure}

section AnyDirectory

@[simp] theorem characters_everywhere (s : Spelling) :
    characters s.everywhere = anyDirectory ++ characters s := by
  obtain ⟨start, more⟩ := s
  cases more <;> simp [characters, Spelling.everywhere, Spelling.filled, Spelling.write]

/-- The prefix for any directory has no braces. -/
theorem isPlain_anyDirectory : Braces.IsPlain anyDirectory :=
  Braces.isPlain_iff.mpr ⟨by decide, by decide⟩

theorem items_anyDirectory_append (rest : List Char) :
    items (anyDirectory ++ rest) = .star :: .star :: .one (· == '/') :: items rest := rfl

/-- After any directory the rest matches from behind a slash. -/
theorem isMatch_anyDirectory_iff : isMatch (anyDirectory ++ rest) path = true ↔
    ∃ above below, path = above ++ '/' :: below ∧ isMatch rest below = true := by
  simp only [isMatch_eq_matchesItems, items_anyDirectory_append, matchesItems, anySuffix_iff]
  constructor
  · rintro ⟨t, ht, u, hu, hmatch⟩
    obtain ⟨above, rfl⟩ := hu.trans ht
    cases u with
    | nil => simp [matchesItems] at hmatch
    | cons c below =>
      simp only [matchesItems, Bool.and_eq_true, beq_iff_eq] at hmatch
      obtain ⟨rfl, hmatch⟩ := hmatch
      exact ⟨above, below, rfl, hmatch⟩
  · rintro ⟨above, below, rfl, hmatch⟩
    have hend : '/' :: below <:+ above ++ '/' :: below := List.suffix_append _ _
    exact ⟨_, hend, _, List.suffix_rfl, by simpa [matchesItems] using hmatch⟩

/-- After any directory the rest matches the whole path or from behind one of its slashes. -/
theorem matchesPath_anyDirectory_iff : matchesPath (anyDirectory ++ rest) path = true ↔
    isMatch rest path = true ∨
      ∃ above below, path = above ++ '/' :: below ∧ isMatch rest below = true := by
  have hdrop : (anyDirectory ++ rest).drop 3 = rest := rfl
  have hbegins : anyDirectory.isPrefixOf (anyDirectory ++ rest) = true :=
    List.isPrefixOf_iff_prefix.mpr (List.prefix_append _ _)
  rw [matchesPath, hdrop, hbegins, Bool.true_and, Bool.or_eq_true, isMatch_anyDirectory_iff,
    or_comm]

end AnyDirectory

section Meanings

/-- The texts that patterns stand for. -/
def meanings (patterns : List Spelling) : Set (List Char) :=
  {t | ∃ p ∈ patterns, t ∈ Braces.expand (characters p)}

/-- No patterns mean nothing. -/
@[simp] theorem notMem_meanings_nil : t ∉ meanings [] := by
  simp [meanings]

/-- Patterns mean what the first one means and what the others do. -/
@[simp] theorem mem_meanings_cons :
    t ∈ meanings (p :: patterns) ↔ t ∈ Braces.expand (characters p) ∨ t ∈ meanings patterns := by
  simp [meanings]

/-- What patterns mean does not depend on their order. -/
theorem meanings_of_perm (h : patterns.Perm others) : meanings patterns = meanings others := by
  ext t
  simp [meanings, h.mem_iff]

/-- The pattern has more pairs of braces than are replaced. -/
def IsTooDeep [Nesting.Room] (p : Spelling) : Prop :=
  Nesting.Site.test.limit < Braces.pairs (characters p)

/-- A text that the pattern stands for matches the path. -/
def Applies (p : Spelling) (path : List Char) : Prop :=
  ∃ t ∈ Braces.expand (characters p), matchesPath t path = true

variable [Nesting.Room]

/-- A pattern with too many pairs is reached: no pattern before it applies. -/
def ReachesTooDeep (patterns : List Spelling) (path : List Char) : Prop :=
  ∃ before p after, patterns = before ++ p :: after ∧ IsTooDeep p ∧ ∀ q ∈ before, ¬Applies q path

/-- A search reaches a pattern that is too deep at the first one, or after it if that does not
apply. -/
theorem reachesTooDeep_cons : ReachesTooDeep (p :: patterns) path ↔
    IsTooDeep p ∨ ¬Applies p path ∧ ReachesTooDeep patterns path := by
  constructor
  · rintro ⟨before, q, after, hsplit, hdeep, hbefore⟩
    cases before with
    | nil =>
      obtain ⟨rfl, -⟩ := List.cons.inj hsplit
      exact .inl hdeep
    | cons first before =>
      obtain ⟨rfl, rfl⟩ := List.cons.inj hsplit
      obtain ⟨hfirst, hbefore⟩ := List.forall_mem_cons.mp hbefore
      exact .inr ⟨hfirst, before, q, after, rfl, hdeep, hbefore⟩
  · rintro (hdeep | ⟨hp, before, q, after, rfl, hdeep, hbefore⟩)
    · exact ⟨[], p, patterns, rfl, hdeep, nofun⟩
    · exact ⟨p :: before, q, after, rfl, hdeep, List.forall_mem_cons.mpr ⟨hp, hbefore⟩⟩

/-- The first pattern is refused, or it applies, or the others decide. -/
theorem matchesAny_cons_cases (p : Spelling) (patterns : List Spelling) (path : List Char) :
    (IsTooDeep p ∧ matchesAny path ((p :: patterns).map .text) = .error (.tooDeep .groups)) ∨
    (¬IsTooDeep p ∧ Applies p path ∧ matchesAny path ((p :: patterns).map .text) = .ok true) ∨
    (¬IsTooDeep p ∧ ¬Applies p path ∧
      matchesAny path ((p :: patterns).map .text) = matchesAny path (patterns.map .text)) := by
  have happlies : (Braces.expand (characters p)).any (matchesPath · path) = true ↔
      Applies p path := List.any_eq_true
  rw [List.map_cons, matchesAny]
  by_cases hdeep : IsTooDeep p
  · have hrefused : Braces.expansionsAt .test (characters p) = .error (.tooDeep .groups) :=
      if_pos hdeep
    exact .inl ⟨hdeep, by rw [hrefused]; rfl⟩
  · have hexpand : Braces.expansionsAt .test (characters p) =
        .ok (Braces.expand (characters p)) := if_neg hdeep
    right
    by_cases hp : Applies p path
    · exact .inl ⟨hdeep, hp, by simp [hexpand, bind, Except.bind, happlies.mpr hp]⟩
    · exact .inr ⟨hdeep, hp, by simp [hexpand, bind, Except.bind, mt happlies.mp hp]⟩

/-- The answer tells whether one of the texts that the patterns stand for matches. -/
theorem eq_true_iff_of_matchesAny (h : matchesAny path (patterns.map .text) = .ok b) :
    b = true ↔ ∃ t ∈ meanings patterns, matchesPath t path = true := by
  induction patterns with
  | nil =>
    obtain rfl := Except.ok.inj h
    simp
  | cons p patterns ih =>
    simp only [mem_meanings_cons, or_and_right, exists_or]
    rcases matchesAny_cons_cases p patterns path with ⟨-, hcons⟩ | ⟨-, hp, hcons⟩ | ⟨-, hp, hcons⟩
    · rw [hcons] at h
      cases h
    · rw [hcons] at h
      obtain rfl := Except.ok.inj h
      exact iff_of_true rfl (.inl hp)
    · rw [hcons] at h
      rw [ih h]
      exact (or_iff_right hp).symm

/-- There is no answer exactly where a pattern with too many pairs is reached. -/
theorem matchesAny_eq_error_iff : matchesAny path (patterns.map .text) = .error e ↔
    e = .tooDeep .groups ∧ ReachesTooDeep patterns path := by
  induction patterns with
  | nil =>
    refine iff_of_false nofun ?_
    rintro ⟨-, before, p, after, hsplit, -⟩
    cases before <;> cases hsplit
  | cons p patterns ih =>
    rw [reachesTooDeep_cons]
    rcases matchesAny_cons_cases p patterns path with
      ⟨hdeep, hcons⟩ | ⟨hdeep, hp, hcons⟩ | ⟨hdeep, hp, hcons⟩
    · rw [hcons]
      simp [hdeep, eq_comm]
    · rw [hcons]
      simp [hdeep, hp]
    · rw [hcons, ih]
      simp [hdeep, hp]

end Meanings

/-- A pattern without braces for any directory always has an answer. -/
theorem exists_matchesAny_everywhere [Nesting.Room] (hrest : Braces.IsPlain (characters p)) :
    ∃ b, matchesAny path [.text p.everywhere] = .ok b ∧
      (b = true ↔ isMatch (characters p) path = true ∨
        ∃ above below, path = above ++ '/' :: below ∧ isMatch (characters p) below = true) := by
  have hplain : Braces.IsPlain (characters p.everywhere) := by
    rw [characters_everywhere]
    exact isPlain_anyDirectory.append hrest
  have hexpand := Braces.expansionsAt_of_notMem (Braces.isPlain_iff.mp hplain).2 .test
  obtain ⟨hfew, hexpand⟩ := Braces.expansionsAt_eq_ok_iff.mp hexpand
  have happlies : Applies p.everywhere path ↔ isMatch (characters p) path = true ∨
      ∃ above below, path = above ++ '/' :: below ∧ isMatch (characters p) below = true := by
    rw [← matchesPath_anyDirectory_iff, ← characters_everywhere, Applies, hexpand]
    simp only [List.mem_singleton, exists_eq_left]
  rw [← happlies]
  rcases matchesAny_cons_cases p.everywhere [] path with
    ⟨hdeep, -⟩ | ⟨-, hp, hcons⟩ | ⟨-, hp, hcons⟩
  · exact absurd hfew (Nat.not_le.mpr hdeep)
  · exact ⟨true, hcons, iff_of_true rfl hp⟩
  · exact ⟨false, hcons, iff_of_false Bool.false_ne_true hp⟩

/-- A pattern without braces for any directory matches what its rest matches from the beginning of
the path or from behind a slash. Whatever the patterns are, a path has an answer unless one with
too many pairs of braces is reached, and patterns that stand for the same texts give the same
answer. -/
theorem matchesAny_by_meanings [Nesting.Room] (path : List Char) :
    (∀ rest : Spelling, (∀ c ∈ characters rest, Braces.isBrace c = false) →
      ∃ b, matchesAny path [.text rest.everywhere] = .ok b ∧
        (b = true ↔ isMatch (characters rest) path = true ∨
          ∃ above below, path = above ++ '/' :: below ∧
            isMatch (characters rest) below = true)) ∧
    (∀ (patterns : List Spelling) (e : Failure),
      matchesAny path (patterns.map .text) = .error e ↔
        e = .tooDeep .groups ∧ ReachesTooDeep patterns path) ∧
    ∀ patterns others : List Spelling, meanings patterns = meanings others → ∀ b b' : Bool,
      matchesAny path (patterns.map .text) = .ok b → matchesAny path (others.map .text) = .ok b' →
        b = b' := by
  refine ⟨fun rest hrest => exists_matchesAny_everywhere hrest,
    fun patterns e => matchesAny_eq_error_iff, fun patterns others hsame b b' hb hb' => ?_⟩
  rw [Bool.eq_iff_iff, eq_true_iff_of_matchesAny hb, eq_true_iff_of_matchesAny hb', hsame]

section Stylesheets

attribute [local instance] Nesting.Room.ample

/-- Two kinds of stylesheets as alternatives of one pattern. -/
def alternativeStylesheets : List Spelling := ["*.\x7bcss,scss\x7d"]

/-- Two kinds of stylesheets, the one in the end once more. -/
def singleStylesheets : List Spelling := ["*.scss", "*.css", "*.scss"]

/-- Alternatives are as good as patterns of their own, in another order and more than once. -/
theorem matchesAny_by_meanings_stylesheets :
    (∀ c ∈ characters "dist/[a-c]*", Braces.isBrace c = false) ∧
    matchesAny "web/dist/c.css".toList [.text (Spelling.everywhere "dist/[a-c]*")] = .ok true ∧
    meanings alternativeStylesheets = meanings singleStylesheets ∧
    matchesAny "web/dist/c.css".toList (alternativeStylesheets.map .text) = .ok true ∧
    matchesAny "web/dist/c.css".toList (singleStylesheets.map .text) = .ok true := by
  obtain ⟨heverywhere, herror, hsame⟩ := matchesAny_by_meanings "web/dist/c.css".toList
  have hplain : ∀ c ∈ characters "dist/[a-c]*", Braces.isBrace c = false :=
    Braces.isPlain_iff.mpr ⟨by decide, by decide⟩
  obtain ⟨b, hb, hmatches⟩ := heverywhere "dist/[a-c]*" hplain
  obtain rfl : b = true := hmatches.mpr (.inr ⟨"web".toList, "dist/c.css".toList, rfl, by decide⟩)
  have hmeanings : meanings alternativeStylesheets = meanings singleStylesheets := by
    have halternatives : Braces.expand (characters "*.\x7bcss,scss\x7d") =
        ["*.css".toList, "*.scss".toList] := by decide
    have hsingle : Braces.expand (characters "*.css") = ["*.css".toList] := by decide
    have hother : Braces.expand (characters "*.scss") = ["*.scss".toList] := by decide
    ext t
    simp only [alternativeStylesheets, singleStylesheets, mem_meanings_cons, notMem_meanings_nil,
      halternatives, hsingle, hother, List.mem_cons, List.not_mem_nil, or_false]
    constructor
    · rintro (hcss | hscss)
      · exact .inr (.inl hcss)
      · exact .inl hscss
    · rintro (hscss | hcss | hscss)
      · exact .inr hscss
      · exact .inl hcss
      · exact .inr hscss
  have hfirst : matchesAny "web/dist/c.css".toList (alternativeStylesheets.map .text) =
      .ok true := rfl
  refine ⟨hplain, hb, hmeanings, hfirst, ?_⟩
  cases hanswer : matchesAny "web/dist/c.css".toList (singleStylesheets.map .text) with
  | ok b => rw [hsame _ _ hmeanings true b hfirst hanswer]
  | error e =>
    obtain ⟨-, before, p, after, hsplit, hdeep, -⟩ := (herror _ e).mp hanswer
    have hfew : ∀ p ∈ singleStylesheets, ¬IsTooDeep p := by
      unfold IsTooDeep
      decide
    exact absurd hdeep (hfew p (hsplit ▸ by simp))

end Stylesheets

/-- A pattern with more groups than the stack holds calls. -/
def tooManyGroups : Spelling := String.ofList (Braces.emptyGroups 1500)

/-- So many groups are too deep, whatever the room. -/
theorem isTooDeep_tooManyGroups [Nesting.Room] : IsTooDeep tooManyGroups := by
  rw [IsTooDeep, tooManyGroups, characters_ofList, Braces.pairs_emptyGroups]
  have hroom := Nesting.Site.limit_le (s := .test) nofun
  exact hroom.trans_lt (by decide)

/-- However much room there is, the order of patterns makes a difference where one of them has too
many pairs of braces. -/
theorem not_forall_matchesAny_eq : ¬∃ _ : Nesting.Room,
    ∀ (patterns others : List Spelling) (path : List Char),
      meanings patterns = meanings others →
        matchesAny path (patterns.map .text) = matchesAny path (others.map .text) := by
  rintro ⟨_, hsame⟩
  have hrefused : ReachesTooDeep [tooManyGroups, "*.css"] "a.css".toList :=
    reachesTooDeep_cons.mpr (.inl isTooDeep_tooManyGroups)
  have hfirst := matchesAny_eq_error_iff.mpr ⟨rfl, hrefused⟩
  rw [hsame _ ["*.css", tooManyGroups] _ (meanings_of_perm (List.Perm.swap _ _ []))] at hfirst
  -- Here the pattern that applies comes first.
  rcases reachesTooDeep_cons.mp (matchesAny_eq_error_iff.mp hfirst).2 with hdeep | ⟨hnot, -⟩
  · exact absurd hdeep (Nat.not_lt_zero _)
  · exact hnot ⟨"*.css".toList, by decide, by decide⟩

end Wildcard

end DesignTokens
