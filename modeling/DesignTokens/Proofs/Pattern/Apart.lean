import DesignTokens.Proofs.Pattern.Leftmost

/-!
# Matches that keep apart

Matches that would overlap an earlier one are passed over. With a pattern of which no match starts
inside another nothing is passed over: the matches in a text are those at all its places. A pattern
that begins with a character and takes no second one like it is of this kind.
-/

namespace DesignTokens.Pattern

/-- Every match takes something, and no other one starts inside it. -/
def KeepsApart (p : Pattern) : Prop :=
  ∀ s m, p.matchAt s = some m → m.text ≠ [] ∧
    ∀ n, 0 < n → n < m.text.length → p.matchAt (s.drop n) = none

variable {p : Pattern} {s : List Char} {m : Match}

/-- A match of a text and a pattern after it takes the text and what the pattern takes. -/
theorem exists_of_matchAt_seq_lit {word : String} {c : Char} {q : Pattern}
    (hq : q.avoids c = true) (h : (seq (lit word) q).matchAt s = some m) :
    ∃ taken, m.text = word.toList ++ taken ∧ c ∉ taken := by
  unfold matchAt at h
  rw [exec.eq_4] at h
  obtain ⟨after, rfl, h⟩ := exists_of_exec_lit h
  obtain ⟨taken, rest, g', rfl, htaken, hm⟩ := exists_of_exec_of_avoids hq h
  obtain rfl := Option.some.inj hm
  rw [← List.append_assoc, before_append]
  exact ⟨taken, rfl, htaken⟩

/-- A pattern that begins with a text keeps apart, if nothing after its first character is like
it. -/
theorem keepsApart_seq_lit {word : String} {c : Char} {cs : List Char} {q : Pattern}
    (hword : word.toList = c :: cs) (hcs : c ∉ cs) (hq : q.avoids c = true) :
    (seq (lit word) q).KeepsApart := by
  intro s m h
  obtain ⟨taken, htext, htaken⟩ := exists_of_matchAt_seq_lit hq h
  rw [hword, List.cons_append] at htext
  refine ⟨htext ▸ List.cons_ne_nil c _, fun n hpos hlt => ?_⟩
  rw [Option.eq_none_iff_forall_ne_some]
  intro m' h'
  -- A match inside would begin with a character that the outer one has taken.
  obtain ⟨taken', htext', -⟩ := exists_of_matchAt_seq_lit hq h'
  have hat : s[n]? = some c := by
    rw [← List.head?_drop, (prefers_of_matchAt h').1, htext', hword]
    rfl
  rw [(prefers_of_matchAt h).1, List.getElem?_append_left hlt, htext] at hat
  obtain ⟨n, rfl⟩ := Nat.exists_eq_succ_of_ne_zero (Nat.ne_of_gt hpos)
  rcases List.mem_append.mp (List.mem_of_getElem? hat) with hmem | hmem
  · exact hcs hmem
  · exact htaken hmem

namespace KeepsApart

theorem isTaking (hp : p.KeepsApart) : p.IsTaking := fun s m h => (hp s m h).1

/-- The matches in a text are those at all its places. -/
theorem mem_findAll_iff (hp : p.KeepsApart) {f : Found} :
    f ∈ p.findAll s ↔ p.matchAt (s.drop f.start) = some f.found := by
  obtain ⟨hmatched, -, hcovered⟩ := hp.isTaking.isLeftmost_findAll s
  have hplace : ∀ f ∈ p.findAll s, p.matchAt (s.drop f.start) = some f.found := by
    intro f hf
    obtain ⟨i, hstart, -, hm⟩ := hmatched f hf
    rwa [hstart, Nat.zero_add]
  refine ⟨hplace f, fun hm => ?_⟩
  obtain ⟨g, hg, hle, hlt⟩ := hcovered f.start f.found (Nat.zero_le _) hm
  rw [Nat.zero_add] at hle hlt
  rcases Nat.eq_or_lt_of_le hle with heq | hinside
  · -- It starts where the match is that covers its place, so it is this match.
    have hfound : g.found = f.found := by
      rw [← Option.some.injEq, ← hplace g hg, heq, hm]
    obtain rfl : g = f := by
      cases g
      cases f
      simp_all
    exact hg
  · -- Inside that match there would be no other one.
    have hnone := (hp _ _ (hplace g hg)).2 (f.start - g.start) (by omega)
      (by unfold Found.stop at hlt; omega)
    rw [List.drop_drop, Nat.add_sub_cancel' hle, hm] at hnone
    cases hnone

end KeepsApart

end DesignTokens.Pattern
