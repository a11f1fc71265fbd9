import DesignTokens.Proofs.Lists
import DesignTokens.Proofs.Pattern.Choices

/-!
# What a pattern matches

A pattern takes a text where it describes it, in any of the ways that its alternatives and runs
leave open. Matching tries these ways in their order of preference and goes back where the rest of
the pattern fails; so a match is the first of them, and a place has a match whenever some beginning
of the text there is taken.
-/

namespace DesignTokens.Pattern

/-- The pattern takes a text in front of a rest, in whatever way. -/
inductive Takes : Pattern → List Char → List Char → Prop
  | empty {rest : List Char} : Takes .empty [] rest
  | one {holds : Char → Bool} {c : Char} {rest : List Char} (hc : holds c = true) :
    Takes (.one holds) [c] rest
  | seq {a b : Pattern} {s t rest : List Char} (ha : Takes a s (t ++ rest)) (hb : Takes b t rest) :
    Takes (.seq a b) (s ++ t) rest
  | left {a b : Pattern} {s rest : List Char} (ha : Takes a s rest) : Takes (.alt a b) s rest
  | right {a b : Pattern} {s rest : List Char} (hb : Takes b s rest) : Takes (.alt a b) s rest
  | many {holds : Char → Bool} {run rest : List Char} (hrun : ∀ c ∈ run, holds c = true) :
    Takes (.many holds) run rest
  | group {number : Nat} {a : Pattern} {s rest : List Char} (ha : Takes a s rest) :
    Takes (.group number a) s rest
  | atEnd {rest : List Char} (hrest : rest = [] ∨ rest = ['\n']) : Takes .atEnd [] rest

/-- The ways of matching at the beginning of a text, the preferred ones first: what follows the
match, and what the groups kept. -/
def ways : Pattern → List Char → Captures → List (List Char × Captures)
  | empty, s, g => [(s, g)]
  | one _, [], _ => []
  | one holds, c :: s, g => if holds c then [(s, g)] else []
  | seq a b, s, g => (ways a s g).flatMap fun w => ways b w.1 w.2
  | alt a b, s, g => ways a s g ++ ways b s g
  | many holds, s, g => (runEnds holds s).map fun rest => (rest, g)
  | group number a, s, g => (ways a s g).map fun w => (w.1, ⟨number, s, w.1⟩ :: w.2)
  | atEnd, s, g => if s = [] ∨ s = ['\n'] then [(s, g)] else []

variable {α : Type} {p : Pattern} {s t rest : List Char} {g : Captures}

/-- A pattern goes on with the first of its ways from which the continuation succeeds. -/
theorem exec_eq_findSome?_ways (p : Pattern) (s : List Char) (g : Captures)
    (k : List Char → Captures → Option α) :
    exec p s g k = (ways p s g).findSome? fun w => k w.1 w.2 := by
  induction p generalizing s g k with
  | empty => rw [exec.eq_1, ways.eq_1, List.findSome?_singleton]
  | one holds =>
    cases s with
    | nil => rfl
    | cons c s =>
      rw [exec.eq_3, ways.eq_3]
      split
      · rw [List.findSome?_singleton]
      · rfl
  | seq a b iha ihb =>
    rw [exec.eq_4, ways.eq_4, iha, findSome?_flatMap]
    simp only [ihb]
  | alt a b iha ihb => rw [exec_alt, ways.eq_5, iha, ihb, List.findSome?_append]
  | many holds =>
    rw [exec.eq_6, ways.eq_6, List.findSome?_map]
    rfl
  | group number a ih =>
    rw [exec.eq_7, ways.eq_7, ih, List.findSome?_map]
    rfl
  | atEnd =>
    rw [exec.eq_8, ways.eq_8]
    split
    · rw [List.findSome?_singleton]
    · rfl

/-- The match at a place is the first of the ways of matching there. -/
theorem matchAt_eq_head?_ways (p : Pattern) (s : List Char) :
    p.matchAt s = (p.ways s []).head?.map fun w => ⟨before s w.1, w.1, w.2⟩ := by
  unfold matchAt
  rw [exec_eq_findSome?_ways]
  cases p.ways s [] <;> rfl

/-- In each of its ways the pattern takes what is before the rest. -/
theorem exists_takes_of_mem_ways {g' : Captures} (h : (rest, g') ∈ p.ways s g) :
    ∃ t, s = t ++ rest ∧ p.Takes t rest := by
  induction p generalizing s g rest g' with
  | empty =>
    obtain ⟨rfl, -⟩ := Prod.mk.inj (List.mem_singleton.mp h)
    exact ⟨[], rfl, .empty⟩
  | one holds =>
    cases s with
    | nil => cases h
    | cons c s =>
      rw [ways.eq_3] at h
      split at h
      next hc =>
        obtain ⟨rfl, -⟩ := Prod.mk.inj (List.mem_singleton.mp h)
        exact ⟨[c], rfl, .one hc⟩
      next => cases h
  | seq a b iha ihb =>
    obtain ⟨⟨middle, g₁⟩, hfirst, hsecond⟩ := List.mem_flatMap.mp h
    obtain ⟨t, rfl, ha⟩ := iha hfirst
    obtain ⟨u, rfl, hb⟩ := ihb hsecond
    exact ⟨t ++ u, (List.append_assoc t u rest).symm, .seq ha hb⟩
  | alt a b iha ihb =>
    rcases List.mem_append.mp h with hleft | hright
    · obtain ⟨t, hs, ha⟩ := iha hleft
      exact ⟨t, hs, .left ha⟩
    · obtain ⟨t, hs, hb⟩ := ihb hright
      exact ⟨t, hs, .right hb⟩
  | many holds =>
    obtain ⟨rest, hrest, heq⟩ := List.mem_map.mp h
    obtain ⟨rfl, -⟩ := Prod.mk.inj heq
    obtain ⟨run, hs, hrun⟩ := mem_runEnds_iff.mp hrest
    exact ⟨run, hs, .many hrun⟩
  | group number a ih =>
    obtain ⟨⟨rest, g₁⟩, hinner, heq⟩ := List.mem_map.mp h
    obtain ⟨rfl, -⟩ := Prod.mk.inj heq
    obtain ⟨t, hs, ha⟩ := ih hinner
    exact ⟨t, hs, .group ha⟩
  | atEnd =>
    rw [ways.eq_8] at h
    split at h
    next hend =>
      obtain ⟨rfl, -⟩ := Prod.mk.inj (List.mem_singleton.mp h)
      exact ⟨[], rfl, .atEnd hend⟩
    next => cases h

/-- What the pattern takes is among its ways. -/
theorem Takes.exists_mem_ways (h : p.Takes t rest) (g : Captures) :
    ∃ g', (rest, g') ∈ p.ways (t ++ rest) g := by
  induction h generalizing g with
  | empty => exact ⟨g, List.mem_singleton_self _⟩
  | one hc =>
    refine ⟨g, ?_⟩
    rw [List.singleton_append, ways.eq_3, if_pos hc]
    exact List.mem_singleton_self _
  | seq _ _ iha ihb =>
    obtain ⟨g₁, hfirst⟩ := iha g
    obtain ⟨g', hsecond⟩ := ihb g₁
    rw [← List.append_assoc] at hfirst
    exact ⟨g', List.mem_flatMap.mpr ⟨_, hfirst, hsecond⟩⟩
  | left _ iha =>
    obtain ⟨g', hleft⟩ := iha g
    exact ⟨g', List.mem_append_left _ hleft⟩
  | right _ ihb =>
    obtain ⟨g', hright⟩ := ihb g
    exact ⟨g', List.mem_append_right _ hright⟩
  | many hrun => exact ⟨g, List.mem_map_of_mem (mem_runEnds_iff.mpr ⟨_, rfl, hrun⟩)⟩
  | group _ ih =>
    obtain ⟨g₁, hinner⟩ := ih g
    exact ⟨_, List.mem_map_of_mem hinner⟩
  | atEnd hend =>
    refine ⟨g, ?_⟩
    rw [List.nil_append, ways.eq_8, if_pos hend]
    exact List.mem_singleton_self _

/-- The pattern takes a text in front of a rest, and it would take no other text there instead. -/
structure Prefers (p : Pattern) (t rest : List Char) : Prop where
  takes : p.Takes t rest
  first : (p.ways (t ++ rest) []).head?.map (·.1) = some rest

/-- A match is the text that the pattern prefers where it stands. -/
theorem prefers_of_matchAt {m : Match} (h : p.matchAt s = some m) :
    s = m.text ++ m.rest ∧ p.Prefers m.text m.rest := by
  rw [matchAt_eq_head?_ways] at h
  obtain ⟨⟨rest, g'⟩, hfirst, rfl⟩ := Option.map_eq_some_iff.mp h
  obtain ⟨t, rfl, htakes⟩ := exists_takes_of_mem_ways (List.mem_of_head? hfirst)
  rw [before_append]
  exact ⟨rfl, htakes, by rw [hfirst, Option.map_some]⟩

/-- A fixed text is taken. -/
theorem Takes.lit (t : String) (rest : List Char) : (lit t).Takes t.toList rest := by
  unfold Pattern.lit
  induction t.toList with
  | nil => exact .empty
  | cons c cs ih =>
    have hone : (Pattern.one (· == c)).Takes [c] (cs ++ rest) := .one (beq_self_eq_true c)
    exact .seq hone ih

/-- A run of at least one character of a class is taken. -/
theorem Takes.many1 {holds : Char → Bool} {run : List Char} (hne : run ≠ [])
    (hrun : ∀ c ∈ run, holds c = true) (rest : List Char) : (many1 holds).Takes run rest := by
  obtain ⟨c, cs, rfl⟩ := List.exists_cons_of_ne_nil hne
  obtain ⟨hc, hcs⟩ := List.forall_mem_cons.mp hrun
  exact .seq (.one hc) (.many hcs)

/-- No two texts are preferred at one place. -/
theorem Prefers.unique {t' rest' : List Char} (h : p.Prefers t rest) (h' : p.Prefers t' rest')
    (hsame : t ++ rest = t' ++ rest') : t = t' ∧ rest = rest' := by
  have hrest : rest = rest' := by
    have hfirst := h.first
    rw [hsame, h'.first] at hfirst
    exact (Option.some.inj hfirst).symm
  subst hrest
  exact ⟨List.append_cancel_right hsame, rfl⟩

/-- Where the pattern takes something there is a match. -/
theorem Takes.exists_matchAt (h : p.Takes t rest) : ∃ m, p.matchAt (t ++ rest) = some m := by
  obtain ⟨g', hmem⟩ := h.exists_mem_ways []
  obtain ⟨first, hfirst⟩ := Option.isSome_iff_exists.mp
    (List.isSome_head?.mpr (List.ne_nil_of_mem hmem))
  rw [matchAt_eq_head?_ways, hfirst]
  exact ⟨_, rfl⟩

end DesignTokens.Pattern
