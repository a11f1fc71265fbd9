import DesignTokens.Proofs.Pattern.Ways

/-!
# Matches from left to right

The search for matches goes on behind each match that it finds. Where every match takes something,
the matches found are therefore apart, each is the one at its place, and every place with a match
lies in one of them: only what begins inside an earlier match is passed over.
-/

namespace DesignTokens.Pattern

/-- Where a match that was found ends. -/
def Found.stop (f : Found) : Nat := f.start + f.found.text.length

/-- Every match takes something. -/
def IsTaking (p : Pattern) : Prop := ∀ s m, p.matchAt s = some m → m.text ≠ []

/-- What is found in a text that begins at a position, when its first characters are skipped. -/
structure IsLeftmost (p : Pattern) (position skip : Nat) (s : List Char) (found : List Found) :
    Prop where
  /-- What is found is the match at its place. -/
  matched : ∀ f ∈ found, ∃ i, f.start = position + i ∧ skip ≤ i ∧
    p.matchAt (s.drop i) = some f.found
  /-- Each match ends before the next one starts. -/
  apart : found.Pairwise fun f f' => f.stop ≤ f'.start
  /-- A place that has a match is in one that is found. -/
  covered : ∀ i m, skip ≤ i → p.matchAt (s.drop i) = some m →
    ∃ f ∈ found, f.start ≤ position + i ∧ position + i < f.stop

theorem isTaking_of_nullable {p : Pattern} (h : p.nullable = false) : p.IsTaking :=
  fun _ _ hm => text_ne_nil_of_matchAt h hm

/-- A text that is skipped has no matches. -/
theorem findFrom_skip (p : Pattern) (position : Nat) (t s : List Char) :
    p.findFrom position t.length (t ++ s) = p.findFrom (position + t.length) 0 s := by
  induction t generalizing position with
  | nil => rfl
  | cons c t ih =>
    rw [List.cons_append, List.length_cons, findFrom.eq_2, ih, Nat.add_right_comm, Nat.add_assoc]

namespace IsTaking

variable {p : Pattern} {s t : List Char} {position skip : Nat}

/-- One place has at most one match. -/
theorem matchesAt_eq (hp : p.IsTaking) (s : List Char) :
    p.matchesAt s = (p.matchAt s).toList := by
  unfold matchesAt
  cases h : p.matchAt s with
  | none => rfl
  | some m => simp [hp s m h]

/-- An empty text has no match. -/
theorem matchAt_nil (hp : p.IsTaking) : p.matchAt [] = none := by
  rw [Option.eq_none_iff_forall_ne_some]
  intro m h
  exact hp [] m h (List.append_eq_nil_iff.mp (prefers_of_matchAt h).1.symm).1

/-- The search goes through the places of a text in their order. -/
theorem search_eq_findSome? (hp : p.IsTaking) (s : List Char) :
    p.search s = (List.range s.length).findSome? fun i => p.matchAt (s.drop i) := by
  induction s with
  | nil => exact hp.matchAt_nil
  | cons c s ih =>
    rw [List.length_cons, List.range_succ_eq_map, List.findSome?_cons, List.findSome?_map,
      List.drop_zero, search]
    cases p.matchAt (c :: s) with
    | some m => rfl
    | none => exact ih

theorem findFrom_nil (hp : p.IsTaking) (position skip : Nat) :
    p.findFrom position skip [] = [] := by
  rw [findFrom.eq_1, hp.matchesAt_eq, hp.matchAt_nil]
  rfl

/-- Without a match the search goes on at the next place. -/
theorem findFrom_of_none (hp : p.IsTaking) {c : Char} (h : p.matchAt (c :: s) = none) :
    p.findFrom position 0 (c :: s) = p.findFrom (position + 1) 0 s := by
  rw [findFrom.eq_3, hp.matchesAt_eq, h]
  rfl

/-- After a match its other characters are skipped. -/
theorem findFrom_of_some (hp : p.IsTaking) {c : Char} {m : Match}
    (h : p.matchAt (c :: s) = some m) :
    p.findFrom position 0 (c :: s) =
      ⟨position, m⟩ :: p.findFrom (position + 1) (m.text.length - 1) s := by
  rw [findFrom.eq_3, hp.matchesAt_eq, h]
  rfl

/-- A text with no match at any of its places is passed over. -/
theorem findFrom_append_of_none (hp : p.IsTaking)
    (h : ∀ u, u ≠ [] → u <:+ t → p.matchAt (u ++ s) = none) :
    p.findFrom position 0 (t ++ s) = p.findFrom (position + t.length) 0 s := by
  induction t generalizing position with
  | nil => rfl
  | cons c t ih =>
    have hhere := h (c :: t) (List.cons_ne_nil c t) List.suffix_rfl
    rw [List.cons_append] at hhere ⊢
    rw [hp.findFrom_of_none hhere, ih fun u hne hu => h u hne (hu.trans (List.suffix_cons c t)),
      List.length_cons, Nat.add_right_comm, Nat.add_assoc]

/-- A match is found where it stands, and the search goes on behind it. -/
theorem findFrom_append_of_some (hp : p.IsTaking) {m : Match} (h : p.matchAt (t ++ s) = some m)
    (htext : m.text = t) :
    p.findFrom position 0 (t ++ s) = ⟨position, m⟩ :: p.findFrom (position + t.length) 0 s := by
  obtain ⟨c, t, rfl⟩ := List.exists_cons_of_ne_nil (htext ▸ hp _ _ h)
  rw [List.cons_append] at h ⊢
  rw [hp.findFrom_of_some h, htext, List.length_cons, Nat.add_sub_cancel, findFrom_skip,
    Nat.add_right_comm, Nat.add_assoc]

/-- The matches found in a text are the leftmost ones. -/
theorem isLeftmost_findFrom (hp : p.IsTaking) (position skip : Nat) (s : List Char) :
    p.IsLeftmost position skip s (p.findFrom position skip s) := by
  induction s generalizing position skip with
  | nil =>
    rw [hp.findFrom_nil]
    refine ⟨nofun, .nil, fun i m _ hm => ?_⟩
    rw [List.drop_nil, hp.matchAt_nil] at hm
    cases hm
  | cons c s ih =>
    cases skip with
    | succ skip =>
      obtain ⟨hmatched, hapart, hcovered⟩ := ih (position + 1) skip
      rw [findFrom.eq_2]
      refine ⟨fun f hf => ?_, hapart, fun i m hskip hm => ?_⟩
      · obtain ⟨i, hstart, hskip, hm⟩ := hmatched f hf
        exact ⟨i + 1, by omega, Nat.succ_le_succ hskip, hm⟩
      · obtain ⟨i, rfl⟩ := Nat.exists_eq_succ_of_ne_zero (Nat.ne_zero_of_lt hskip)
        obtain ⟨f, hf, hstart, hstop⟩ := hcovered i m (Nat.le_of_succ_le_succ hskip) hm
        exact ⟨f, hf, by omega, by omega⟩
    | zero =>
      cases hhere : p.matchAt (c :: s) with
      | none =>
        obtain ⟨hmatched, hapart, hcovered⟩ := ih (position + 1) 0
        rw [hp.findFrom_of_none hhere]
        refine ⟨fun f hf => ?_, hapart, fun i m _ hm => ?_⟩
        · obtain ⟨i, hstart, -, hm⟩ := hmatched f hf
          exact ⟨i + 1, by omega, Nat.zero_le _, hm⟩
        · cases i with
          | zero =>
            rw [List.drop_zero, hhere] at hm
            cases hm
          | succ i =>
            obtain ⟨f, hf, hstart, hstop⟩ := hcovered i m (Nat.zero_le i) hm
            exact ⟨f, hf, by omega, by omega⟩
      | some first =>
        obtain ⟨hmatched, hapart, hcovered⟩ := ih (position + 1) (first.text.length - 1)
        have hlength := List.length_pos_iff.mpr (hp _ _ hhere)
        rw [hp.findFrom_of_some hhere]
        refine ⟨fun f hf => ?_, List.pairwise_cons.mpr ⟨fun f hf => ?_, hapart⟩,
          fun i m _ hm => ?_⟩
        · rcases List.mem_cons.mp hf with rfl | hf
          · exact ⟨0, rfl, Nat.le_refl 0, hhere⟩
          · obtain ⟨i, hstart, -, hm⟩ := hmatched f hf
            exact ⟨i + 1, by omega, Nat.zero_le _, hm⟩
        · obtain ⟨i, hstart, hskip, -⟩ := hmatched f hf
          simp only [Found.stop]
          omega
        -- The place is in the first match, or behind it.
        · by_cases hinside : i < first.text.length
          · exact ⟨⟨position, first⟩, List.mem_cons_self, Nat.le_add_right _ _,
              Nat.add_lt_add_left hinside position⟩
          · obtain ⟨i, rfl⟩ := Nat.exists_eq_succ_of_ne_zero (n := i) (by omega)
            obtain ⟨f, hf, hstart, hstop⟩ := hcovered i m (by omega) hm
            exact ⟨f, List.mem_cons_of_mem _ hf, by omega, by omega⟩

/-- The matches in a text are the leftmost ones. -/
theorem isLeftmost_findAll (hp : p.IsTaking) (s : List Char) :
    p.IsLeftmost 0 0 s (p.findAll s) := hp.isLeftmost_findFrom 0 0 s

end IsTaking

end DesignTokens.Pattern
