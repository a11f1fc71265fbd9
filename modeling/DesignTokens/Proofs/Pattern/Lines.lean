import DesignTokens.Proofs.Pattern.Leftmost
import DesignTokens.Proofs.Text.Lines

/-!
# Matches line by line

A pattern that never takes a separator, and does not look for the end of the text, has at a place
in one field the ways of matching that it has if the text ends with the field: no way goes past the
separator, and none is opened or closed by what comes after it. The matches in a text are therefore
those in its fields, one field after the other.
-/

namespace DesignTokens.Pattern

/-- Whether the form of a pattern has it look for the end of the text. -/
def asksForEnd : Pattern → Bool
  | empty | one _ | many _ => false
  | atEnd => true
  | seq a b | alt a b => a.asksForEnd || b.asksForEnd
  | group _ a => a.asksForEnd

/-- A pattern whose matches stay in one field: it never takes the separator, and does not look for
the end of the text. -/
structure IsWithin (sep : Char) (p : Pattern) : Prop where
  avoids : p.avoids sep = true
  asksForEnd : p.asksForEnd = false

variable {sep : Char} {p a b : Pattern} {s : List Char}

namespace IsWithin

theorem of_seq (h : IsWithin sep (seq a b)) : IsWithin sep a ∧ IsWithin sep b := by
  obtain ⟨ha, hb⟩ := Bool.and_eq_true_iff.mp h.avoids
  obtain ⟨ha', hb'⟩ := Bool.or_eq_false_iff.mp h.asksForEnd
  exact ⟨⟨ha, ha'⟩, ⟨hb, hb'⟩⟩

theorem of_alt (h : IsWithin sep (alt a b)) : IsWithin sep a ∧ IsWithin sep b := by
  obtain ⟨ha, hb⟩ := Bool.and_eq_true_iff.mp h.avoids
  obtain ⟨ha', hb'⟩ := Bool.or_eq_false_iff.mp h.asksForEnd
  exact ⟨⟨ha, ha'⟩, ⟨hb, hb'⟩⟩

end IsWithin

/-- A run ends before a character that is not of its class, whatever follows. -/
theorem runEnds_append_sep {holds : Char → Bool} (hsep : holds sep = false)
    (s tail : List Char) :
    runEnds holds (s ++ sep :: tail) = (runEnds holds s).map (· ++ sep :: tail) := by
  have hfrom : ∀ shorter, runEndsFrom holds (shorter.map (· ++ sep :: tail)) (s ++ sep :: tail) =
      (runEndsFrom holds shorter s).map (· ++ sep :: tail) := by
    induction s with
    | nil =>
      intro shorter
      rw [List.nil_append, runEndsFrom.eq_2, hsep]
      rfl
    | cons c s ih =>
      intro shorter
      rw [List.cons_append, runEndsFrom.eq_2, runEndsFrom.eq_2]
      split
      · exact ih ((c :: s) :: shorter)
      · rfl
  exact hfrom []

/-- The same way of matching, where a text goes on after its end. -/
def IsBefore (tail : List Char) (w w' : List Char × Captures) : Prop := w'.1 = w.1 ++ tail

/-- What comes after a separator neither adds a way of matching nor takes one away. -/
theorem IsWithin.ways_append_sep (h : IsWithin sep p) (s tail : List Char) (g g' : Captures) :
    List.Forall₂ (IsBefore (sep :: tail)) (p.ways s g) (p.ways (s ++ sep :: tail) g') := by
  induction p generalizing s g g' with
  | empty => exact .cons rfl .nil
  | one holds =>
    cases s with
    | nil =>
      have hsep : holds sep = false := by simpa [Pattern.avoids] using h.avoids
      rw [List.nil_append, ways.eq_3, hsep]
      exact .nil
    | cons c s =>
      rw [List.cons_append, ways.eq_3, ways.eq_3]
      split
      · exact .cons rfl .nil
      · exact .nil
  | seq a b iha ihb =>
    obtain ⟨ha, hb⟩ := h.of_seq
    refine List.rel_flatMap (iha ha s g g') fun w w' hw => ?_
    have hrest := ihb hb w.1 w.2 w'.2
    rwa [← show w'.1 = w.1 ++ sep :: tail from hw] at hrest
  | alt a b iha ihb =>
    obtain ⟨ha, hb⟩ := h.of_alt
    exact List.rel_append (iha ha s g g') (ihb hb s g g')
  | many holds =>
    have hsep : holds sep = false := by simpa [Pattern.avoids] using h.avoids
    rw [ways.eq_6, ways.eq_6, runEnds_append_sep hsep, List.map_map, List.forall₂_map_left_iff,
      List.forall₂_map_right_iff]
    exact List.forall₂_same.mpr fun _ _ => rfl
  | group number a ih =>
    have ha : IsWithin sep a := ⟨h.avoids, h.asksForEnd⟩
    rw [ways.eq_7, ways.eq_7, List.forall₂_map_left_iff, List.forall₂_map_right_iff]
    exact ih ha s g g'
  | atEnd => cases h.asksForEnd

/-- What is before a rest is the same where both go on. -/
theorem before_append_append (s rest tail : List Char) :
    before (s ++ tail) (rest ++ tail) = before s rest := by
  unfold before
  rw [List.length_append, List.length_append, Nat.add_sub_add_right,
    List.take_append_of_le_length (Nat.sub_le _ _)]

/-- A match is the same whatever comes after the separator. -/
theorem IsWithin.text_matchAt_append_sep (h : IsWithin sep p) (s tail : List Char) :
    (p.matchAt (s ++ sep :: tail)).map (·.text) = (p.matchAt s).map (·.text) := by
  have hways := h.ways_append_sep s tail [] []
  rw [matchAt_eq_head?_ways, matchAt_eq_head?_ways]
  cases hhere : p.ways s [] with
  | nil =>
    rw [hhere, List.forall₂_nil_left_iff] at hways
    rw [hways]
    rfl
  | cons w ws =>
    rw [hhere] at hways
    obtain ⟨w', ws', hw, -, heq⟩ := List.forall₂_cons_left_iff.mp hways
    have htext : before (s ++ sep :: tail) w'.1 = before s w.1 := by
      rw [show w'.1 = w.1 ++ sep :: tail from hw, before_append_append]
    rw [heq]
    exact congrArg some htext

/-- The texts of matches that are found. -/
def texts (found : List Found) : List (List Char) := found.map (·.found.text)

@[simp] theorem length_texts (found : List Found) : (texts found).length = found.length :=
  List.length_map _

namespace IsTaking

variable {position skip : Nat}

/-- The texts that are found do not depend on where the text begins. -/
theorem texts_findFrom (hp : p.IsTaking) (position position' skip : Nat) (s : List Char) :
    texts (p.findFrom position skip s) = texts (p.findFrom position' skip s) := by
  induction s generalizing position position' skip with
  | nil => rw [hp.findFrom_nil, hp.findFrom_nil]
  | cons c s ih =>
    cases skip with
    | succ skip => exact ih (position + 1) (position' + 1) skip
    | zero =>
      cases hhere : p.matchAt (c :: s) with
      | none =>
        rw [hp.findFrom_of_none hhere, hp.findFrom_of_none hhere]
        exact ih (position + 1) (position' + 1) 0
      | some m =>
        rw [hp.findFrom_of_some hhere, hp.findFrom_of_some hhere]
        exact congrArg (m.text :: ·) (ih (position + 1) (position' + 1) _)

/-- The search goes on anew after a separator: what is found before it is found where the text ends
there. -/
theorem texts_findFrom_append_sep (hp : p.IsTaking) (hwithin : IsWithin sep p)
    (hskip : skip ≤ s.length) (tail : List Char) :
    texts (p.findFrom position skip (s ++ sep :: tail)) =
      texts (p.findFrom position skip s) ++ texts (p.findAll tail) := by
  induction s generalizing position skip with
  | nil =>
    have hhere := hwithin.text_matchAt_append_sep [] tail
    rw [hp.matchAt_nil, Option.map_none, Option.map_eq_none_iff, List.nil_append] at hhere
    obtain rfl := Nat.le_zero.mp hskip
    rw [List.nil_append, hp.findFrom_of_none hhere, hp.findFrom_nil, findAll,
      hp.texts_findFrom (position + 1) 0]
    rfl
  | cons c s ih =>
    cases skip with
    | succ skip => exact ih (Nat.le_of_succ_le_succ hskip)
    | zero =>
      have hhere := hwithin.text_matchAt_append_sep (c :: s) tail
      rw [List.cons_append] at hhere ⊢
      cases hmatch : p.matchAt (c :: s) with
      | none =>
        rw [hmatch, Option.map_none, Option.map_eq_none_iff] at hhere
        rw [hp.findFrom_of_none hhere, hp.findFrom_of_none hmatch]
        exact ih (Nat.zero_le _)
      | some m =>
        rw [hmatch, Option.map_some, Option.map_eq_some_iff] at hhere
        obtain ⟨m', hm', htext⟩ := hhere
        -- The match ends before the separator, so the search goes on no later than there.
        have hlength : m.text.length ≤ (c :: s).length := by
          rw [(prefers_of_matchAt hmatch).1, List.length_append]
          exact Nat.le_add_right _ _
        rw [hp.findFrom_of_some hm', hp.findFrom_of_some hmatch, htext]
        calc texts (⟨position, m'⟩ :: p.findFrom (position + 1) (m.text.length - 1)
              (s ++ sep :: tail))
          _ = m'.text :: (texts (p.findFrom (position + 1) (m.text.length - 1) s) ++
                texts (p.findAll tail)) :=
              congrArg (m'.text :: ·) (ih (Nat.sub_le_of_le_add hlength))
          _ = m.text :: texts (p.findFrom (position + 1) (m.text.length - 1) s) ++
                texts (p.findAll tail) := by rw [htext, List.cons_append]

/-- The matches in a text are those in its fields, one field after the other. -/
theorem texts_findAll_splitOn (hp : p.IsTaking) (hwithin : IsWithin sep p) (s : List Char) :
    texts (p.findAll s) = (Text.splitOn sep s).flatMap fun field => texts (p.findAll field) := by
  -- The text is what its fields are joined to.
  have hjoined : ∀ fields : List (List Char), fields ≠ [] →
      texts (p.findAll (Text.joinWith [sep] fields)) =
        fields.flatMap fun field => texts (p.findAll field) := by
    intro fields hne
    induction fields with
    | nil => exact absurd rfl hne
    | cons field fields ih =>
      cases fields with
      | nil => exact (List.flatMap_singleton _ _).symm
      | cons next more =>
        rw [Text.joinWith_cons_cons, List.singleton_append, findAll,
          hp.texts_findFrom_append_sep hwithin (Nat.zero_le _), ih (List.cons_ne_nil next more)]
        rfl
  have hsplit := hjoined (Text.splitOn sep s) (Text.splitOn_ne_nil sep s)
  rwa [Text.joinWith_splitOn] at hsplit

/-- A match is found in a text exactly if it has one. -/
theorem findAll_ne_nil_iff (hp : p.IsTaking) (s : List Char) :
    p.findAll s ≠ [] ↔ p.occursIn s = true := by
  have hfrom : ∀ position, p.findFrom position 0 s ≠ [] ↔ p.occursIn s = true := by
    unfold occursIn
    induction s with
    | nil =>
      intro position
      rw [hp.findFrom_nil, search, hp.matchAt_nil]
      simp
    | cons c s ih =>
      intro position
      cases hhere : p.matchAt (c :: s) with
      | none =>
        rw [hp.findFrom_of_none hhere, search, hhere]
        exact ih (position + 1)
      | some m =>
        rw [hp.findFrom_of_some hhere, search, hhere]
        exact iff_of_true (List.cons_ne_nil _ _) rfl
  exact hfrom 0

end IsTaking

end DesignTokens.Pattern
