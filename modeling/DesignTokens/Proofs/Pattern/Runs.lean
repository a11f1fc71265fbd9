import DesignTokens.Pattern

/-!
# Fixed texts and runs

What the two commonest pieces of a pattern match: a fixed text is matched by the texts that begin
with it, and a run takes all characters of its class before any shorter run is tried.
-/

namespace DesignTokens.Pattern

/-- A part of a text, cut off by what follows it, is the text before the rest. -/
theorem before_append (s rest : List Char) : before (s ++ rest) rest = s := by
  simp only [before, List.length_append, Nat.add_sub_cancel, List.take_left]

private theorem exec_foldr {α : Type} (cs s : List Char) (g : Captures)
    (k : List Char → Captures → Option α) :
    exec (cs.foldr (fun c p => seq (one (· == c)) p) empty) s g k =
      if cs.isPrefixOf s then k (s.drop cs.length) g else none := by
  induction cs generalizing s with
  | nil => simp only [List.foldr_nil, exec, List.isPrefixOf, ite_true, List.length_nil,
      List.drop_zero]
  | cons c cs ih =>
    cases s with
    | nil => rfl
    | cons d s =>
      by_cases h : d = c
      · subst h
        simp [exec, ih, List.isPrefixOf]
      · have hc : (c == d) = false := beq_false_of_ne (Ne.symm h)
        simp [exec, h, hc, List.isPrefixOf]

/-- A fixed text matches where the text begins with it, and goes on after it. -/
theorem exec_lit {α : Type} (t : String) (s : List Char) (g : Captures)
    (k : List Char → Captures → Option α) :
    exec (lit t) s g k =
      if t.toList.isPrefixOf s then k (s.drop t.toList.length) g else none :=
  exec_foldr t.toList s g k

/-- A text begins with a match of a fixed text exactly when it begins with that text. -/
theorem begins_lit (t : String) (s : List Char) : (lit t).begins s = t.toList.isPrefixOf s := by
  unfold begins matchAt
  rw [exec_lit]
  cases t.toList.isPrefixOf s <;> rfl

/-- The longest run is tried first. -/
theorem head?_runEndsFrom (holds : Char → Bool) (shorter : List (List Char)) (s : List Char) :
    (runEndsFrom holds shorter s).head? = some (s.dropWhile holds) := by
  induction s generalizing shorter with
  | nil => rfl
  | cons c s ih =>
    unfold runEndsFrom
    by_cases h : holds c = true
    · rw [if_pos h, ih, List.dropWhile_cons_of_pos h]
    · rw [if_neg h, List.dropWhile_cons_of_neg h]
      rfl

private theorem mem_runEndsFrom_iff {holds : Char → Bool} {shorter : List (List Char)}
    {s rest : List Char} :
    rest ∈ runEndsFrom holds shorter s ↔
      rest ∈ shorter ∨ ∃ run, s = run ++ rest ∧ ∀ c ∈ run, holds c = true := by
  induction s generalizing shorter with
  | nil =>
    rw [runEndsFrom.eq_1, List.mem_cons, or_comm]
    refine or_congr_right ⟨?_, ?_⟩
    · rintro rfl
      exact ⟨[], rfl, nofun⟩
    · rintro ⟨run, hsplit, -⟩
      exact (List.append_eq_nil_iff.mp hsplit.symm).2
  | cons c s ih =>
    -- The run is empty, or it begins with the first character.
    have hrun : (∃ run, c :: s = run ++ rest ∧ ∀ d ∈ run, holds d = true) ↔
        rest = c :: s ∨ holds c = true ∧ ∃ run, s = run ++ rest ∧ ∀ d ∈ run, holds d = true := by
      constructor
      · rintro ⟨_ | ⟨d, run⟩, hsplit, hholds⟩
        · exact .inl hsplit.symm
        · obtain ⟨rfl, hrest⟩ := List.cons.inj hsplit
          obtain ⟨hc, hrun⟩ := List.forall_mem_cons.mp hholds
          exact .inr ⟨hc, run, hrest, hrun⟩
      · rintro (rfl | ⟨hc, run, rfl, hrun⟩)
        · exact ⟨[], rfl, nofun⟩
        · exact ⟨c :: run, rfl, List.forall_mem_cons.mpr ⟨hc, hrun⟩⟩
    rw [runEndsFrom.eq_2, hrun]
    by_cases hc : holds c = true
    · rw [if_pos hc, ih, List.mem_cons, and_iff_right hc, or_assoc, or_left_comm]
    · rw [if_neg hc, List.mem_cons, or_comm, iff_false_intro hc, false_and, or_false]

/-- A run may end after any number of characters of its class. -/
theorem mem_runEnds_iff {holds : Char → Bool} {s rest : List Char} :
    rest ∈ runEnds holds s ↔ ∃ run, s = run ++ rest ∧ ∀ c ∈ run, holds c = true := by
  unfold runEnds
  rw [mem_runEndsFrom_iff, or_iff_right List.not_mem_nil]

/-- A run from which the continuation succeeds at its longest takes all characters of its class. -/
theorem exec_many {α : Type} {holds : Char → Bool} {s : List Char} {g : Captures}
    {k : List Char → Captures → Option α} {r : α} (h : k (s.dropWhile holds) g = some r) :
    exec (many holds) s g k = some r := by
  have hhead : (runEnds holds s).head? = some (s.dropWhile holds) := head?_runEndsFrom holds [] s
  change (runEnds holds s).findSome? (fun s' => k s' g) = some r
  cases he : runEnds holds s with
  | nil => rw [he, List.head?_nil] at hhead; cases hhead
  | cons first others =>
    rw [he, List.head?_cons, Option.some.injEq] at hhead
    rw [List.findSome?_cons, hhead, h]

/-- A run of at least one character needs one to begin with. -/
theorem exec_many1 {α : Type} {holds : Char → Bool} {s : List Char} {g : Captures}
    {k : List Char → Captures → Option α} {r : α} (h : k (s.dropWhile holds) g = some r) :
    exec (many1 holds) s g k = if s.takeWhile holds = [] then none else some r := by
  cases s with
  | nil => rfl
  | cons c s =>
    by_cases hc : holds c = true
    · rw [List.dropWhile_cons_of_pos hc] at h
      simp only [many1, exec.eq_4, exec.eq_3, hc, ite_true, List.takeWhile_cons_of_pos hc,
        reduceCtorEq, ite_false]
      exact exec_many h
    · simp [many1, exec, hc]

end DesignTokens.Pattern
