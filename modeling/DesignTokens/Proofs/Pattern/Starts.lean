import DesignTokens.Proofs.Pattern.Runs
import DesignTokens.Token.Format
import Mathlib.Data.List.Nodup

/-!
# Where matches start

What follows a match is a rest of the text, and a shorter one if the pattern cannot match the empty
text. A place can have two matches, an empty one and one that takes something; with such a pattern
it has at most one, so the matches in a text start at different places.
-/

namespace DesignTokens.Pattern

/-- Whether the form of a pattern allows it to match without taking a character. -/
def nullable : Pattern → Bool
  | empty | many _ | atEnd => true
  | one _ => false
  | seq a b => a.nullable && b.nullable
  | alt a b => a.nullable || b.nullable
  | group _ a => a.nullable

/-- What follows a run is a rest of the text. -/
theorem suffix_of_mem_runEnds {holds : Char → Bool} {s rest : List Char}
    (h : rest ∈ runEnds holds s) : rest <:+ s := by
  obtain ⟨run, hsplit, -⟩ := mem_runEnds_iff.mp h
  exact ⟨run, hsplit.symm⟩

/-- The continuation goes on with a rest of the text, after at least one character if the pattern
has to take one. -/
theorem exists_of_exec {α : Type} {p : Pattern} {s : List Char} {g : Captures}
    {k : List Char → Captures → Option α} {r : α} (h : exec p s g k = some r) :
    ∃ rest g', k rest g' = some r ∧ rest <:+ s ∧ (p.nullable = false → rest.length < s.length) := by
  -- A sequence hands its second pattern on in the continuation of the first, so the continuation is
  -- arbitrary throughout.
  induction p generalizing s g k with
  | empty => exact ⟨s, g, h, List.suffix_rfl, fun hp => Bool.noConfusion hp⟩
  | one holds =>
    cases s with
    | nil => cases h
    | cons c s =>
      unfold exec at h
      split at h
      · exact ⟨s, g, h, List.suffix_cons c s, fun _ => Nat.lt_succ_self _⟩
      · cases h
  | seq a b iha ihb =>
    obtain ⟨middle, g₁, hb, hfirst, htakes⟩ := iha h
    obtain ⟨rest, g₂, hk, hsecond, htakes'⟩ := ihb hb
    refine ⟨rest, g₂, hk, hsecond.trans hfirst, fun hp => ?_⟩
    have hle := hfirst.length_le
    have hle' := hsecond.length_le
    rcases Bool.and_eq_false_iff.mp hp with ha | hb
    · exact Nat.lt_of_le_of_lt hle' (htakes ha)
    · exact Nat.lt_of_lt_of_le (htakes' hb) hle
  | alt a b iha ihb =>
    have hsome : exec a s g k = some r ∨ exec b s g k = some r := by
      unfold exec at h
      cases ha : exec a s g k with
      | none => exact .inr (by rwa [ha] at h)
      | some r' => exact .inl (by rwa [ha] at h)
    rcases hsome with ha | hb
    · obtain ⟨rest, g', hk, hsuffix, htakes⟩ := iha ha
      exact ⟨rest, g', hk, hsuffix, fun hp => htakes (Bool.or_eq_false_iff.mp hp).1⟩
    · obtain ⟨rest, g', hk, hsuffix, htakes⟩ := ihb hb
      exact ⟨rest, g', hk, hsuffix, fun hp => htakes (Bool.or_eq_false_iff.mp hp).2⟩
  | many holds =>
    obtain ⟨rest, hrest, hk⟩ := List.exists_of_findSome?_eq_some h
    exact ⟨rest, g, hk, suffix_of_mem_runEnds hrest, fun hp => Bool.noConfusion hp⟩
  | group number a ih =>
    obtain ⟨rest, g', hk, hsuffix, htakes⟩ := ih h
    exact ⟨rest, _, hk, hsuffix, htakes⟩
  | atEnd =>
    unfold exec at h
    split at h
    · exact ⟨s, g, h, List.suffix_rfl, fun hp => Bool.noConfusion hp⟩
    · cases h

variable {p : Pattern} {s : List Char}

/-- A pattern that has to take a character has matches with some text. -/
theorem text_ne_nil_of_matchAt (hp : p.nullable = false) {m : Match} (h : p.matchAt s = some m) :
    m.text ≠ [] := by
  obtain ⟨rest, g, hm, hsuffix, htakes⟩ := exists_of_exec h
  obtain rfl := Option.some.inj hm
  obtain ⟨text, rfl⟩ := hsuffix
  rw [before_append]
  rintro rfl
  exact Nat.lt_irrefl _ (htakes hp)

/-- Such a pattern has no other matches. -/
theorem text_ne_nil_of_mem_matchesAt (hp : p.nullable = false) {m : Match}
    (h : m ∈ p.matchesAt s) : m.text ≠ [] := by
  unfold matchesAt at h
  cases hmatch : p.matchAt s with
  | none => simp [hmatch] at h
  | some m' =>
    have htaken := text_ne_nil_of_matchAt hp hmatch
    simp only [hmatch, if_neg htaken, List.mem_singleton] at h
    exact h ▸ htaken

/-- The second match at a place has some text. -/
theorem text_ne_nil_of_takingAt {m : Match} (h : p.takingAt s = some m) : m.text ≠ [] := by
  obtain ⟨rest, g, hm, hsuffix, -⟩ := exists_of_exec h
  split at hm
  next hlt =>
    obtain rfl := Option.some.inj hm
    obtain ⟨text, rfl⟩ := hsuffix
    rw [before_append]
    rintro rfl
    exact Nat.lt_irrefl _ hlt
  next => cases hm

/-- Of two matches at a place the first one is empty and the second one takes something. -/
theorem pairwise_matchesAt (p : Pattern) (s : List Char) :
    (p.matchesAt s).Pairwise fun m m' => m.text = [] ∧ m'.text ≠ [] := by
  unfold matchesAt
  cases p.matchAt s with
  | none => exact .nil
  | some m =>
    dsimp only
    split
    next hempty =>
      cases htaking : p.takingAt s with
      | none => exact List.pairwise_singleton _ _
      | some m' => exact List.pairwise_pair.mpr ⟨hempty, text_ne_nil_of_takingAt htaking⟩
    next => exact List.pairwise_singleton _ _

/-- The matches at a place are told apart by their texts. -/
theorem eq_of_mem_matchesAt {m m' : Match} (h : m ∈ p.matchesAt s) (h' : m' ∈ p.matchesAt s)
    (htext : m.text = m'.text) : m = m' := by
  have hnodup : ((p.matchesAt s).map (·.text)).Nodup := by
    refine List.pairwise_map.mpr ((pairwise_matchesAt p s).imp fun {m m'} hm heq => hm.2 ?_)
    rw [← heq, hm.1]
  exact List.inj_on_of_nodup_map hnodup h h' htext

/-- What is found is one of the matches at its place. -/
theorem exists_of_mem_findFrom {position skip : Nat} {m : Found}
    (h : m ∈ p.findFrom position skip s) :
    ∃ i, m.start = position + i ∧ m.found ∈ p.matchesAt (s.drop i) := by
  induction s generalizing position skip with
  | nil =>
    obtain ⟨found, hfound, rfl⟩ := List.mem_map.mp h
    exact ⟨0, rfl, hfound⟩
  | cons c s ih =>
    -- What is found later in the text is there from its second place on.
    have hlater : ∀ skip, m ∈ p.findFrom (position + 1) skip s →
        ∃ i, m.start = position + i ∧ m.found ∈ p.matchesAt ((c :: s).drop i) := by
      intro skip h
      obtain ⟨i, hstart, hfound⟩ := ih h
      exact ⟨i + 1, by omega, hfound⟩
    cases skip with
    | succ skip => exact hlater skip h
    | zero =>
      rcases List.mem_append.mp h with hhere | h
      · obtain ⟨found, hfound, rfl⟩ := List.mem_map.mp hhere
        exact ⟨0, rfl, hfound⟩
      · exact hlater _ h

/-- One match is found before another: it starts before it, or it is the empty one where the other
takes something. -/
def Found.Before (m m' : Found) : Prop :=
  m.start < m'.start ∨ m.start = m'.start ∧ m.found.text = [] ∧ m'.found.text ≠ []

/-- The matches in a text are found one after the other. -/
theorem pairwise_findFrom (p : Pattern) (position skip : Nat) (s : List Char) :
    (p.findFrom position skip s).Pairwise Found.Before := by
  have hhere : ∀ (position : Nat) (s : List Char),
      ((p.matchesAt s).map (Found.mk position)).Pairwise Found.Before := fun position s =>
    List.pairwise_map.mpr ((pairwise_matchesAt p s).imp fun hm => .inr ⟨rfl, hm⟩)
  induction s generalizing position skip with
  | nil => exact hhere position []
  | cons c s ih =>
    cases skip with
    | succ skip => exact ih (position + 1) skip
    | zero =>
      refine List.pairwise_append.mpr ⟨hhere position (c :: s), ih _ _, fun m hm m' hm' => .inl ?_⟩
      obtain ⟨found, -, rfl⟩ := List.mem_map.mp hm
      obtain ⟨i, hstart, -⟩ := exists_of_mem_findFrom hm'
      dsimp only
      omega

/-- The matches of a pattern that has to take a character start one after the other. -/
theorem pairwise_start_findFrom (hp : p.nullable = false) (position skip : Nat) (s : List Char) :
    ((p.findFrom position skip s).map (·.start)).Pairwise (· < ·) := by
  refine List.pairwise_map.mpr ((pairwise_findFrom p position skip s).imp_of_mem ?_)
  intro m m' hm _ hbefore
  rcases hbefore with hlt | ⟨-, hempty, -⟩
  · exact hlt
  · obtain ⟨i, -, hfound⟩ := exists_of_mem_findFrom hm
    exact absurd hempty (text_ne_nil_of_mem_matchesAt hp hfound)

/-- No two matches of such a pattern in a text start at one place. -/
theorem nodup_start_findAll (hp : p.nullable = false) (s : List Char) :
    ((p.findAll s).map (·.start)).Nodup :=
  (pairwise_start_findFrom hp 0 0 s).imp Nat.ne_of_lt

end DesignTokens.Pattern

namespace DesignTokens.TokenFormat

/-- Every reference in a format of the sets takes some text. -/
theorem nullable_presets :
    ∀ preset ∈ presets, ∀ f ∈ preset.2, f.pattern.nullable = false := by
  decide

end DesignTokens.TokenFormat
