import DesignTokens.Proofs.Pattern.Starts

/-!
# Choices and what a pattern takes

An alternative goes on with its right branch where the left one leads to nothing; one of several
words is tried in their order. Whatever a pattern takes is what stands before the text that it goes
on with, and it consists of characters that the pattern allows.
-/

namespace DesignTokens.Pattern

variable {α : Type} {s : List Char} {g : Captures} {k : List Char → Captures → Option α} {r : α}

/-- After a fixed text at the beginning comes the rest. -/
theorem exec_lit_append_left (t : String) (rest : List Char) (g : Captures)
    (k : List Char → Captures → Option α) : exec (lit t) (t.toList ++ rest) g k = k rest g := by
  rw [exec_lit, if_pos (List.isPrefixOf_iff_prefix.mpr (List.prefix_append _ _)), List.drop_left]

/-- A fixed text is at the beginning where it leads to an answer. -/
theorem exists_of_exec_lit {t : String} (h : exec (lit t) s g k = some r) :
    ∃ rest, s = t.toList ++ rest ∧ k rest g = some r := by
  rw [exec_lit] at h
  split at h
  · rename_i hprefix
    obtain ⟨rest, rfl⟩ := List.isPrefixOf_iff_prefix.mp hprefix
    rw [List.drop_left] at h
    exact ⟨rest, rfl, h⟩
  · cases h

/-- A pattern that leads to an answer is not left out. -/
theorem exec_opt_of_some {p : Pattern} (h : exec p s g k = some r) :
    exec (opt p) s g k = some r := by
  simp only [opt, exec.eq_5, h]

/-- A pattern that leads to nothing is left out. -/
theorem exec_opt_of_none {p : Pattern} (h : exec p s g k = none) :
    exec (opt p) s g k = k s g := by
  simp only [opt, exec.eq_5, h, exec.eq_1]

/-- The left branch is preferred. -/
theorem exec_alt (p q : Pattern) (s : List Char) (g : Captures)
    (k : List Char → Captures → Option α) :
    exec (alt p q) s g k = (exec p s g k).or (exec q s g k) := by
  rw [exec.eq_5]
  cases exec p s g k <;> rfl

/-- The patterns are tried in their order. -/
theorem exec_anyOf (ps : List Pattern) (s : List Char) (g : Captures)
    (k : List Char → Captures → Option α) :
    exec (anyOf ps) s g k = ps.findSome? fun p => exec p s g k := by
  induction ps with
  | nil => cases s <;> rfl
  | cons p ps ih =>
    rw [List.findSome?_cons, ← ih]
    cases ps with
    | nil =>
      cases h : exec p s g k with
      | none => cases s <;> exact h
      | some r => exact h
    | cons q qs =>
      rw [anyOf, exec_alt]
      · cases exec p s g k <;> rfl
      · exact fun h => absurd h (List.cons_ne_nil q qs)

/-- The words are tried in their order. -/
theorem exec_words (ws : List String) (s : List Char) (g : Captures)
    (k : List Char → Captures → Option α) :
    exec (words ws) s g k = ws.findSome? fun w => exec (lit w) s g k := by
  unfold words
  rw [exec_anyOf, List.findSome?_map]
  rfl

/-- A text in two parts is matched part by part. -/
theorem exec_lit_append (t w : String) (s : List Char) (g : Captures)
    (k : List Char → Captures → Option α) :
    exec (lit (t ++ w)) s g k = exec (lit t) s g fun s' g' => exec (lit w) s' g' k := by
  simp only [exec_lit, String.toList_append]
  by_cases ht : t.toList <+: s
  · obtain ⟨s, rfl⟩ := ht
    have hfirst : t.toList.isPrefixOf (t.toList ++ s) = true :=
      List.isPrefixOf_iff_prefix.mpr (List.prefix_append _ _)
    have hboth : (t.toList ++ w.toList).isPrefixOf (t.toList ++ s) = w.toList.isPrefixOf s := by
      rw [Bool.eq_iff_iff, List.isPrefixOf_iff_prefix, List.isPrefixOf_iff_prefix,
        List.prefix_append_right_inj]
    rw [if_pos hfirst, hboth, List.drop_left, List.length_append, ← List.drop_drop, List.drop_left]
  · have hneither : ¬t.toList ++ w.toList <+: s := fun h => ht ((List.prefix_append _ _).trans h)
    rw [if_neg (mt List.isPrefixOf_iff_prefix.mp ht),
      if_neg (mt List.isPrefixOf_iff_prefix.mp hneither)]

/-- Words after a text that may be missing are the words with the text before them and without
it. -/
theorem exec_opt_lit_words (t : String) (ws : List String) (s : List Char) (g : Captures)
    (k : List Char → Captures → Option α) :
    exec (opt (lit t)) s g (fun s' g' => exec (words ws) s' g' k) =
      exec (words (ws.map (t ++ ·) ++ ws)) s g k := by
  have hwith : exec (lit t) s g (fun s' g' => exec (words ws) s' g' k) =
      ws.findSome? fun w => exec (lit (t ++ w)) s g k := by
    simp only [exec_lit_append]
    rw [exec_lit]
    simp only [exec_lit t]
    split
    · exact exec_words ws _ g k
    · exact (List.findSome?_eq_none_iff.mpr fun _ _ => rfl).symm
  rw [opt, exec_alt, hwith, exec.eq_1, exec_words, exec_words, List.findSome?_append,
    List.findSome?_map]
  rfl

/-- No word is the beginning of another one. -/
def PrefixFree (ws : List String) : Prop :=
  ∀ w ∈ ws, ∀ w' ∈ ws, w.toList <+: w'.toList → w = w'

instance (ws : List String) : Decidable (PrefixFree ws) :=
  inferInstanceAs (Decidable (∀ w ∈ ws, ∀ w' ∈ ws, w.toList <+: w'.toList → w = w'))

/-- At most one of such words is at the beginning of a text. -/
theorem exec_words_of_mem {ws : List String} {word : String} (hfree : PrefixFree ws)
    (hword : word ∈ ws) (tail : List Char) (g : Captures) :
    exec (words ws) (word.toList ++ tail) g k = k tail g := by
  have hself := exec_lit_append_left word tail g k
  have hother : ∀ w ∈ ws, ∀ r, exec (lit w) (word.toList ++ tail) g k = some r →
      k tail g = some r := by
    intro w hw r hr
    obtain ⟨rest, hrest, -⟩ := exists_of_exec_lit hr
    obtain rfl : w = word := by
      rcases List.prefix_or_prefix_of_prefix ⟨rest, hrest.symm⟩ (List.prefix_append _ tail) with
        h | h
      · exact hfree w hw word hword h
      · exact (hfree word hword w hw h).symm
    rwa [hself] at hr
  rw [exec_words]
  cases hfound : ws.findSome? fun w => exec (lit w) (word.toList ++ tail) g k with
  | none =>
    have hnone := List.findSome?_eq_none_iff.mp hfound word hword
    rw [hself] at hnone
    exact hnone.symm
  | some r =>
    obtain ⟨w, hw, hr⟩ := List.exists_of_findSome?_eq_some hfound
    exact (hother w hw r hr).symm

/-- One of the words is at the beginning where they lead to an answer. -/
theorem exists_of_exec_words {ws : List String} (h : exec (words ws) s g k = some r) :
    ∃ w ∈ ws, ∃ rest, s = w.toList ++ rest ∧ k rest g = some r := by
  rw [exec_words] at h
  obtain ⟨w, hw, hlit⟩ := List.exists_of_findSome?_eq_some h
  exact ⟨w, hw, exists_of_exec_lit hlit⟩

/-- What is cut off after a text and a run of characters is the text with the run. -/
theorem before_append_dropWhile (holds : Char → Bool) (s tail : List Char) :
    before (s ++ tail) (tail.dropWhile holds) = s ++ tail.takeWhile holds := by
  have hsplit := before_append (s ++ tail.takeWhile holds) (tail.dropWhile holds)
  rwa [List.append_assoc, List.takeWhile_append_dropWhile] at hsplit

/-- What is cut off after a run of characters is the run. -/
theorem before_dropWhile (holds : Char → Bool) (s : List Char) :
    before s (s.dropWhile holds) = s.takeWhile holds :=
  before_append_dropWhile holds [] s

section Takes

/-- Whether the form of a pattern keeps it from taking a character. -/
def avoids (c : Char) : Pattern → Bool
  | empty | atEnd => true
  | one holds | many holds => !holds c
  | seq a b | alt a b => a.avoids c && b.avoids c
  | group _ a => a.avoids c

/-- A run goes on after characters of its class. -/
theorem exists_of_exec_many {holds : Char → Bool} (h : exec (many holds) s g k = some r) :
    ∃ run rest, s = run ++ rest ∧ (∀ c ∈ run, holds c = true) ∧ k rest g = some r := by
  obtain ⟨rest, hrest, hk⟩ := List.exists_of_findSome?_eq_some h
  obtain ⟨run, hs, hrun⟩ := mem_runEnds_iff.mp hrest
  exact ⟨run, rest, hs, hrun, hk⟩

/-- A run of at least one character goes on after characters of its class. -/
theorem exists_of_exec_many1 {holds : Char → Bool} (h : exec (many1 holds) s g k = some r) :
    ∃ run rest, s = run ++ rest ∧ run ≠ [] ∧ (∀ c ∈ run, holds c = true) ∧
      k rest g = some r := by
  cases s with
  | nil => cases h
  | cons c s =>
    rw [many1, exec.eq_4, exec.eq_3] at h
    split at h
    · rename_i hc
      obtain ⟨run, rest, rfl, hrun, hk⟩ := exists_of_exec_many h
      exact ⟨c :: run, rest, rfl, List.cons_ne_nil c run, List.forall_mem_cons.mpr ⟨hc, hrun⟩, hk⟩
    · cases h

/-- There is something for such a run at the beginning. -/
theorem takeWhile_ne_nil_of_exec_many1 {holds : Char → Bool}
    (h : exec (many1 holds) s g k = some r) : s.takeWhile holds ≠ [] := by
  obtain ⟨run, rest, rfl, hne, hrun, -⟩ := exists_of_exec_many1 h
  obtain ⟨c, cs, rfl⟩ := List.exists_cons_of_ne_nil hne
  rw [List.cons_append, List.takeWhile_cons_of_pos (hrun c List.mem_cons_self)]
  exact List.cons_ne_nil c _

/-- What a pattern takes before it goes on has no character that it avoids. -/
theorem exists_of_exec_of_avoids {p : Pattern} {c : Char} (hp : p.avoids c = true)
    (h : exec p s g k = some r) :
    ∃ taken rest g', s = taken ++ rest ∧ c ∉ taken ∧ k rest g' = some r := by
  induction p generalizing s g k with
  | empty => exact ⟨[], s, g, rfl, List.not_mem_nil, h⟩
  | one holds =>
    cases s with
    | nil => cases h
    | cons d s =>
      rw [exec.eq_3] at h
      split at h
      · rename_i hd
        refine ⟨[d], s, g, rfl, fun hmem => ?_, h⟩
        obtain rfl := List.mem_singleton.mp hmem
        simp [avoids, hd] at hp
      · cases h
  | seq a b iha ihb =>
    obtain ⟨ha, hb⟩ := Bool.and_eq_true_iff.mp hp
    obtain ⟨first, middle, g₁, rfl, hfirst, hmiddle⟩ := iha ha h
    obtain ⟨second, rest, g₂, rfl, hsecond, hk⟩ := ihb hb hmiddle
    refine ⟨first ++ second, rest, g₂, (List.append_assoc ..).symm, fun hmem => ?_, hk⟩
    exact (List.mem_append.mp hmem).elim hfirst hsecond
  | alt a b iha ihb =>
    obtain ⟨ha, hb⟩ := Bool.and_eq_true_iff.mp hp
    rw [exec_alt, Option.or_eq_some_iff] at h
    rcases h with hleft | ⟨-, hright⟩
    · exact iha ha hleft
    · exact ihb hb hright
  | many holds =>
    obtain ⟨run, rest, rfl, hrun, hk⟩ := exists_of_exec_many h
    refine ⟨run, rest, g, rfl, fun hmem => ?_, hk⟩
    simp [avoids, hrun c hmem] at hp
  | group number a ih =>
    obtain ⟨taken, rest, g', hs, htaken, hk⟩ := ih hp h
    exact ⟨taken, rest, _, hs, htaken, hk⟩
  | atEnd =>
    rw [exec.eq_8] at h
    split at h
    · exact ⟨[], s, g, rfl, List.not_mem_nil, h⟩
    · cases h

end Takes

end DesignTokens.Pattern
