import DesignTokens.Text.Lines
import Mathlib.Data.List.TakeWhile

/-!
# Joined fields and lines

Cutting undoes joining: fields without the separator come back from the text that joins them, and
so do lines without a boundary, unless they are empty.
-/

namespace DesignTokens.Text

private theorem splitOn_cons_of_ne {sep c : Char} (h : c ≠ sep) {s field : List Char}
    {more : List (List Char)} (hs : splitOn sep s = field :: more) :
    splitOn sep (c :: s) = (c :: field) :: more := by
  unfold splitOn at hs ⊢
  rw [List.foldr_cons, hs, if_neg h]

/-- What has no separator in it belongs to the first field of what follows. -/
theorem splitOn_append_of_notMem {sep : Char} {s rest field : List Char} {more : List (List Char)}
    (h : sep ∉ s) (hrest : splitOn sep rest = field :: more) :
    splitOn sep (s ++ rest) = (s ++ field) :: more := by
  induction s with
  | nil => exact hrest
  | cons c s ih =>
    have hc : c ≠ sep := fun he => h (he ▸ List.mem_cons_self)
    exact splitOn_cons_of_ne hc (ih fun hs => h (List.mem_cons_of_mem c hs))

/-- A text without the separator is one field. -/
theorem splitOn_of_notMem {sep : Char} {s : List Char} (h : sep ∉ s) : splitOn sep s = [s] := by
  induction s with
  | nil => rfl
  | cons c s ih =>
    have hc : c ≠ sep := fun he => h (he ▸ List.mem_cons_self)
    exact splitOn_cons_of_ne hc (ih fun hs => h (List.mem_cons_of_mem c hs))

/-- The first field ends at the first separator. -/
theorem splitOn_append {sep : Char} {field : List Char} (h : sep ∉ field) (rest : List Char) :
    splitOn sep (field ++ sep :: rest) = field :: splitOn sep rest := by
  induction field with
  | nil => exact splitOn_cons_self sep rest
  | cons c field ih =>
    have hc : c ≠ sep := fun he => h (he ▸ List.mem_cons_self)
    exact splitOn_cons_of_ne hc (ih fun hs => h (List.mem_cons_of_mem c hs))

/-- A separator ends the fields before it, whatever they are. -/
theorem splitOn_append_sep (sep : Char) (s rest : List Char) :
    splitOn sep (s ++ sep :: rest) = splitOn sep s ++ splitOn sep rest := by
  induction s with
  | nil => exact splitOn_cons_self sep rest
  | cons c s ih =>
    by_cases hc : c = sep
    · subst hc
      rw [List.cons_append, splitOn_cons_self, splitOn_cons_self, ih]
      rfl
    · obtain ⟨field, more, hs⟩ := List.exists_cons_of_ne_nil (splitOn_ne_nil sep s)
      rw [hs] at ih
      rw [List.cons_append, splitOn_cons_of_ne hc ih, splitOn_cons_of_ne hc hs]
      rfl

/-- No field has the separator in it. -/
theorem notMem_of_mem_splitOn {sep : Char} {s field : List Char} (h : field ∈ splitOn sep s) :
    sep ∉ field := by
  induction s generalizing field with
  | nil =>
    rw [splitOn_nil, List.mem_singleton] at h
    exact h ▸ List.not_mem_nil
  | cons c s ih =>
    by_cases hc : c = sep
    · subst hc
      rw [splitOn_cons_self] at h
      rcases List.mem_cons.mp h with rfl | hmem
      · exact List.not_mem_nil
      · exact ih hmem
    · obtain ⟨first, more, hs⟩ := List.exists_cons_of_ne_nil (splitOn_ne_nil sep s)
      rw [splitOn_cons_of_ne hc hs] at h
      rcases List.mem_cons.mp h with rfl | hmem
      · intro hsep
        rcases List.mem_cons.mp hsep with rfl | hsep
        · exact hc rfl
        · exact ih (hs ▸ List.mem_cons_self) hsep
      · exact ih (hs ▸ List.mem_cons_of_mem first hmem)

/-- The fields have no other characters than the text. -/
theorem mem_of_mem_splitOn {sep c : Char} {s field : List Char} (hfield : field ∈ splitOn sep s)
    (hc : c ∈ field) : c ∈ s := by
  induction s generalizing field with
  | nil =>
    rw [splitOn_nil, List.mem_singleton] at hfield
    exact hfield ▸ hc
  | cons d s ih =>
    by_cases hd : d = sep
    · subst hd
      rw [splitOn_cons_self] at hfield
      rcases List.mem_cons.mp hfield with rfl | hfield
      · cases hc
      · exact List.mem_cons_of_mem d (ih hfield hc)
    · obtain ⟨first, more, hs⟩ := List.exists_cons_of_ne_nil (splitOn_ne_nil sep s)
      rw [splitOn_cons_of_ne hd hs] at hfield
      rcases List.mem_cons.mp hfield with rfl | hfield
      · rcases List.mem_cons.mp hc with rfl | hc
        · exact List.mem_cons_self
        · exact List.mem_cons_of_mem d (ih (hs ▸ List.mem_cons_self) hc)
      · exact List.mem_cons_of_mem d (ih (hs ▸ List.mem_cons_of_mem first hfield) hc)

/-- Fields without the separator come back from the text that joins them. -/
theorem splitOn_joinWith {sep : Char} {fields : List (List Char)} (hne : fields ≠ [])
    (h : ∀ field ∈ fields, sep ∉ field) : splitOn sep (joinWith [sep] fields) = fields := by
  induction fields with
  | nil => exact absurd rfl hne
  | cons field fields ih =>
    have hfield := h field List.mem_cons_self
    cases fields with
    | nil => exact splitOn_of_notMem hfield
    | cons next more =>
      have hjoin : joinWith [sep] (field :: next :: more) =
          field ++ sep :: joinWith [sep] (next :: more) := by
        simp only [joinWith, List.append_assoc, List.singleton_append]
      rw [hjoin, splitOn_append hfield,
        ih (List.cons_ne_nil next more) fun f hf => h f (List.mem_cons_of_mem field hf)]

/-- Without carriage returns there is none to drop. -/
theorem joinReturns_of_notMem {s : List Char} (h : '\r' ∉ s) : joinReturns s = s := by
  induction s with
  | nil => rfl
  | cons c s ih =>
    have hc : c ≠ '\r' := fun he => h (he ▸ List.mem_cons_self)
    unfold joinReturns
    split
    · rename_i heq
      exact absurd (List.cons.inj heq).1 hc
    · rename_i heq
      obtain ⟨rfl, rfl⟩ := List.cons.inj heq
      rw [ih fun hs => h (List.mem_cons_of_mem c hs)]
    · rename_i heq
      cases heq

/-- Without carriage returns every newline is a line feed already. -/
theorem unifyNewlines_of_notMem {s : List Char} (h : '\r' ∉ s) : unifyNewlines s = s := by
  unfold unifyNewlines
  rw [joinReturns_of_notMem h]
  refine (List.map_congr_left fun c hc => ?_).trans (List.map_id s)
  have hne : c ≠ '\r' := fun he => h (he ▸ hc)
  rw [if_neg hne]
  rfl

/-- The separator is between every two of the joined parts. -/
theorem joinWith_cons_cons (sep first second : List Char) (more : List (List Char)) :
    joinWith sep (first :: second :: more) = first ++ (sep ++ joinWith sep (second :: more)) := by
  simp only [joinWith, List.append_assoc]

/-- A joined text begins with the first of its parts. -/
theorem exists_joinWith_eq_append (sep first : List Char) (more : List (List Char)) :
    ∃ rest, joinWith sep (first :: more) = first ++ rest := by
  cases more with
  | nil => exact ⟨[], (List.append_nil first).symm⟩
  | cons second more => exact ⟨_, joinWith_cons_cons sep first second more⟩

/-- What is in a joined text is in a part or in what is between them. -/
theorem mem_joinWith {sep : List Char} {parts : List (List Char)} {c : Char}
    (h : c ∈ joinWith sep parts) : c ∈ sep ∨ ∃ part ∈ parts, c ∈ part := by
  induction parts with
  | nil => cases h
  | cons first parts ih =>
    cases parts with
    | nil => exact .inr ⟨first, List.mem_cons_self, h⟩
    | cons second more =>
      rw [joinWith_cons_cons, List.mem_append, List.mem_append] at h
      rcases h with hfirst | hsep | hmore
      · exact .inr ⟨first, List.mem_cons_self, hfirst⟩
      · exact .inl hsep
      · rcases ih hmore with hsep | ⟨part, hpart, hc⟩
        · exact .inl hsep
        · exact .inr ⟨part, List.mem_cons_of_mem first hpart, hc⟩

private theorem splitLines_cons {c : Char} {s : List Char} (h : '\r' ∉ c :: s) :
    splitLines (c :: s) =
      if isLineBoundary c then [] :: splitLines s
      else match splitLines s with
        | [] => [[c]]
        | line :: more => (c :: line) :: more := by
  have hs : '\r' ∉ s := fun hmem => h (List.mem_cons_of_mem c hmem)
  unfold splitLines
  rw [joinReturns_of_notMem h, joinReturns_of_notMem hs]
  rfl

private theorem not_mem_of_boundary {s : List Char} (h : ∀ c ∈ s, isLineBoundary c = false) :
    '\r' ∉ s := by
  intro hmem
  have hfalse := h '\r' hmem
  revert hfalse
  decide

/-- A text without a boundary is one line, unless it is empty. -/
theorem splitLines_of_boundary {s : List Char} (hne : s ≠ [])
    (h : ∀ c ∈ s, isLineBoundary c = false) : splitLines s = [s] := by
  induction s with
  | nil => exact absurd rfl hne
  | cons c s ih =>
    rw [splitLines_cons (not_mem_of_boundary h), h c List.mem_cons_self]
    cases s with
    | nil => rfl
    | cons d s => rw [ih (List.cons_ne_nil d s) fun e he => h e (List.mem_cons_of_mem c he)]; rfl

/-- The first line ends at the first line feed. -/
theorem splitLines_append {line rest : List Char} (h : ∀ c ∈ line, isLineBoundary c = false)
    (hrest : '\r' ∉ rest) :
    splitLines (line ++ '\n' :: rest) = line :: splitLines rest := by
  have hreturn : ∀ s : List Char, (∀ c ∈ s, isLineBoundary c = false) →
      '\r' ∉ s ++ '\n' :: rest := by
    intro s hs hmem
    rw [List.mem_append, List.mem_cons] at hmem
    rcases hmem with hmem | heq | hmem
    · exact not_mem_of_boundary hs hmem
    · revert heq
      decide
    · exact hrest hmem
  induction line with
  | nil =>
    rw [List.nil_append, splitLines_cons (hreturn [] (by simp))]
    rfl
  | cons c line ih =>
    have hno : '\r' ∉ c :: (line ++ '\n' :: rest) := hreturn (c :: line) h
    rw [List.cons_append, splitLines_cons hno, h c List.mem_cons_self,
      ih fun d hd => h d (List.mem_cons_of_mem c hd)]
    rfl

/-- Lines without a boundary come back from the text that joins them, unless one is empty. -/
theorem splitLines_joinWith {lines : List (List Char)}
    (h : ∀ line ∈ lines, line ≠ [] ∧ ∀ c ∈ line, isLineBoundary c = false) :
    splitLines (joinWith ['\n'] lines) = lines := by
  induction lines with
  | nil => rfl
  | cons first lines ih =>
    obtain ⟨hne, hfirst⟩ := h first List.mem_cons_self
    have hmore := fun line hline => h line (List.mem_cons_of_mem first hline)
    cases lines with
    | nil => exact splitLines_of_boundary hne hfirst
    | cons second more =>
      have hreturn : '\r' ∉ joinWith ['\n'] (second :: more) := by
        intro hmem
        rcases mem_joinWith hmem with hsep | ⟨line, hline, hc⟩
        · revert hsep
          decide
        · exact not_mem_of_boundary (hmore line hline).2 hc
      rw [joinWith_cons_cons, List.singleton_append, splitLines_append hfirst hreturn, ih hmore]

/-- A line has no boundary in it. -/
theorem boundary_of_mem_splitLines {s line : List Char} {c : Char} (hline : line ∈ splitLines s)
    (hc : c ∈ line) : isLineBoundary c = false := by
  unfold splitLines at hline
  generalize joinReturns s = joined at hline
  induction joined generalizing line with
  | nil => cases hline
  | cons a rest ih =>
    rw [List.foldr_cons] at hline
    split at hline
    · rcases List.mem_cons.mp hline with rfl | hmore
      · cases hc
      · exact ih hc hmore
    · rename_i ha
      have ha := Bool.eq_false_iff.mpr ha
      split at hline
      · obtain rfl := List.mem_singleton.mp hline
        exact List.mem_singleton.mp hc ▸ ha
      · rename_i first more hrest
        rcases List.mem_cons.mp hline with rfl | hmore
        · rcases List.mem_cons.mp hc with rfl | hc
          · exact ha
          · exact ih hc (hrest ▸ List.mem_cons_self)
        · exact ih hc (hrest ▸ List.mem_cons_of_mem first hmore)

/-- The first cut is at the first separator. -/
theorem splitFirst_append {sep : Char} {field : List Char} (h : sep ∉ field) (n : Nat)
    (rest : List Char) :
    splitFirst sep (n + 1) (field ++ sep :: rest) = field :: splitFirst sep n rest := by
  have hall : ∀ c ∈ field, decide (c ≠ sep) = true := by
    intro c hc
    exact decide_eq_true fun he => h (he ▸ hc)
  have hdrop : (field ++ sep :: rest).dropWhile (· ≠ sep) = sep :: rest := by
    rw [List.dropWhile_append_of_pos hall, List.dropWhile_cons_of_neg (by simp)]
  have htake : (field ++ sep :: rest).takeWhile (· ≠ sep) = field := by
    rw [List.takeWhile_append_of_pos hall, List.takeWhile_cons_of_neg (by simp), List.append_nil]
  rw [splitFirst, hdrop, htake]

/-- What stands in a field stands in the text. -/
theorem mem_of_mem_splitFirst {sep c : Char} {n : Nat} {s field : List Char}
    (hfield : field ∈ splitFirst sep n s) (hc : c ∈ field) : c ∈ s := by
  induction n generalizing s with
  | zero => exact List.mem_singleton.mp hfield ▸ hc
  | succ n ih =>
    rw [splitFirst] at hfield
    split at hfield
    · exact List.mem_singleton.mp hfield ▸ hc
    · rename_i sep' rest hdrop
      rcases List.mem_cons.mp hfield with rfl | hmore
      · exact (List.takeWhile_sublist _).subset hc
      · have hrest : c ∈ s.dropWhile (· ≠ sep) := hdrop ▸ List.mem_cons_of_mem sep' (ih hmore)
        exact (List.dropWhile_sublist _).subset hrest

/-- The cuts are as many as there are separators, up to the number allowed. -/
theorem length_splitFirst (sep : Char) (n : Nat) (s : List Char) :
    (splitFirst sep n s).length = min n (s.count sep) + 1 := by
  induction n generalizing s with
  | zero => simp [splitFirst]
  | succ n ih =>
    by_cases hmem : sep ∈ s
    · obtain ⟨field, rest, rfl, hfield⟩ := List.eq_append_cons_of_mem hmem
      rw [splitFirst_append hfield, List.length_cons, ih, List.count_append,
        List.count_eq_zero_of_not_mem hfield, List.count_cons_self]
      omega
    · have hnil : s.dropWhile (· ≠ sep) = [] := by
        rw [List.dropWhile_eq_nil_iff]
        intro c hc
        exact decide_eq_true fun he => hmem (he ▸ hc)
      rw [splitFirst, hnil, List.count_eq_zero_of_not_mem hmem, Nat.min_zero]
      rfl

end DesignTokens.Text
