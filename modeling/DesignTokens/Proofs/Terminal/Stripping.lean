import DesignTokens.Proofs.Terminal.Pieces

/-!
# Texts without their sequences

Stripping goes through a text once, from left to right. Sequences do not overlap, so it takes out
each of them and nothing else. What stood before and after a sequence then comes together, and it
may be a sequence, too: this is so exactly where a sequence of the text was interrupted by others.
-/

namespace DesignTokens.Terminal

/-! ## Sequences -/

/-- The characters of a sequence: the one that begins it, a bracket, parameters and the letter that
ends it. -/
def IsSequence (s : List Char) : Prop :=
  ∃ parameters : List Char, (∀ c ∈ parameters, isParameter c = true) ∧
    s = escape :: '[' :: (parameters ++ ['m'])

/-- A text begins with a sequence. -/
def BeginsSequence (text : List Char) : Prop := ∃ s, IsSequence s ∧ s <+: text

/-- A text has a sequence. -/
def HasSequence (text : List Char) : Prop := ∃ s, IsSequence s ∧ s <:+: text

section Sequences

variable {s t x text rest rest' : List Char} {c : Char} {n : Nat}

/-- What is no parameter and no bracket is not among the parameters. -/
theorem notMem_parameters {parameters : List Char}
    (h : ∀ c ∈ parameters, isParameter c = true) (hbracket : c ≠ '[')
    (hc : isParameter c = false) : c ∉ '[' :: parameters := by
  intro hmem
  rcases List.mem_cons.mp hmem with rfl | hmem
  · exact hbracket rfl
  · rw [h c hmem] at hc
    cases hc

/-- The character that begins a sequence occurs nowhere else in it, and the letter that ends it
does. -/
theorem IsSequence.exists_cons (h : IsSequence s) :
    ∃ tail, s = escape :: tail ∧ escape ∉ tail ∧ 'm' ∈ tail := by
  obtain ⟨parameters, hparameters, rfl⟩ := h
  have hletter : 'm' ∈ '[' :: parameters ++ ['m'] := List.mem_append_right _ List.mem_cons_self
  refine ⟨'[' :: parameters ++ ['m'], rfl, fun hmem => ?_, hletter⟩
  rcases List.mem_append.mp hmem with hmem | hmem
  · exact notMem_parameters hparameters (by decide) (by decide) hmem
  · exact absurd (List.mem_singleton.mp hmem) (by decide)

/-- A sequence has no other one beginning in it. -/
theorem not_isSequence_cons (h : escape ∈ s) : ¬IsSequence (c :: s) := by
  intro hs
  obtain ⟨tail, heq, hnone, -⟩ := hs.exists_cons
  obtain ⟨-, rfl⟩ := List.cons.inj heq
  exact hnone h

/-- The empty text has no sequence. -/
theorem not_hasSequence_nil : ¬HasSequence [] := by
  rintro ⟨s, hs, hpart⟩
  obtain ⟨tail, rfl, -⟩ := hs.exists_cons
  cases List.eq_nil_of_infix_nil hpart

/-- Where no sequence begins, all sequences are in the rest. -/
theorem hasSequence_cons_iff (h : ¬BeginsSequence (c :: rest)) :
    HasSequence (c :: rest) ↔ HasSequence rest := by
  refine exists_congr fun s => and_congr_right fun hs => ?_
  rw [List.infix_cons_iff, or_iff_right fun hbegins => h ⟨s, hs, hbegins⟩]

/-- A sequence does not go on past a place where another may begin. -/
theorem beginsSequence_of_append (h : BeginsSequence (c :: (x ++ escape :: rest))) :
    BeginsSequence (c :: x) := by
  obtain ⟨s, hs, after, htext⟩ := h
  refine ⟨s, hs, ?_⟩
  rw [← List.cons_append] at htext
  rcases List.append_eq_append_iff.mp htext with ⟨middle, hx, -⟩ | ⟨middle, rfl, hrest⟩
  · exact ⟨middle, hx.symm⟩
  · cases middle with
    | nil => exact ⟨[], by simp⟩
    | cons d middle =>
      obtain ⟨rfl, -⟩ := List.cons.inj hrest
      exact absurd hs (not_isSequence_cons (List.mem_append_right x List.mem_cons_self))

/-- A sequence at the beginning of a text is found. -/
theorem sequenceLength?_append (h : IsSequence s) (rest : List Char) :
    sequenceLength? (s ++ rest) = some s.length := by
  obtain ⟨parameters, hparameters, rfl⟩ := h
  have htake : (parameters ++ 'm' :: rest).takeWhile isParameter = parameters := by
    rw [List.takeWhile_append_of_pos hparameters, List.takeWhile_cons_of_neg (by decide),
      List.append_nil]
  have htext : escape :: '[' :: (parameters ++ ['m']) ++ rest =
      escape :: '[' :: (parameters ++ 'm' :: rest) := by simp
  rw [htext]
  unfold sequenceLength?
  simp [escape, htake]

/-- What is found at the beginning of a text is a sequence. -/
theorem beginsSequence_of_sequenceLength? (h : sequenceLength? text = some n) :
    BeginsSequence text := by
  unfold sequenceLength? at h
  split at h
  · rename_i rest
    dsimp only at h
    split at h
    · rename_i after hafter
      have hrest := List.prefix_iff_eq_append.mp (List.takeWhile_prefix isParameter (l := rest))
      rw [hafter] at hrest
      refine ⟨escape :: '[' :: (rest.takeWhile isParameter ++ ['m']),
        ⟨_, fun c hc => List.mem_takeWhile_imp hc, rfl⟩, after, ?_⟩
      simp only [List.cons_append, List.append_assoc, List.nil_append, hrest]
      rfl
    · cases h
  · cases h

/-- Two sequences at the beginning of a text are the same. -/
theorem IsSequence.eq_of_append (hs : IsSequence s) (ht : IsSequence t)
    (h : s ++ rest = t ++ rest') : s = t := by
  have hlength := sequenceLength?_append hs rest
  rw [h, sequenceLength?_append ht] at hlength
  exact (List.append_inj h (Option.some.inj hlength).symm).1

end Sequences

/-! ## Stripping from left to right -/

/-- What is left of a text: a sequence is taken out where one begins, and any other character
stays. -/
inductive Strips : List Char → List Char → Prop
  | nil : Strips [] []
  | sequence {s rest left : List Char} (hs : IsSequence s) (h : Strips rest left) :
    Strips (s ++ rest) left
  | char {c : Char} {rest left : List Char} (hc : ¬BeginsSequence (c :: rest))
    (h : Strips rest left) : Strips (c :: rest) (c :: left)

section Stripping

variable {s text left rest : List Char} {c : Char}

/-- Characters that are left over from a sequence are skipped. -/
theorem stripFrom_skip (s rest : List Char) :
    stripFrom s.length (s ++ rest) = stripFrom 0 rest := by
  induction s with
  | nil => rfl
  | cons c s ih => exact ih

/-- A sequence is taken away. -/
theorem stripFrom_append_of_isSequence (h : IsSequence s) (rest : List Char) :
    stripFrom 0 (s ++ rest) = stripFrom 0 rest := by
  have hfound := sequenceLength?_append h rest
  obtain ⟨tail, rfl, -⟩ := h.exists_cons
  rw [List.cons_append] at hfound ⊢
  rw [stripFrom, hfound]
  exact stripFrom_skip tail rest

/-- A character at which no sequence begins is kept. -/
theorem stripFrom_cons_of_not_beginsSequence (h : ¬BeginsSequence (c :: rest)) :
    stripFrom 0 (c :: rest) = c :: stripFrom 0 rest := by
  cases hfound : sequenceLength? (c :: rest) with
  | none => rw [stripFrom, hfound]
  | some n => exact absurd (beginsSequence_of_sequenceLength? hfound) h

/-- The pass takes the sequences away, from left to right. -/
theorem strips_stripFrom (text : List Char) : Strips text (stripFrom 0 text) := by
  induction hlength : text.length using Nat.strongRecOn generalizing text with
  | ind length ih =>
    subst hlength
    cases text with
    | nil => exact .nil
    | cons c rest =>
      by_cases h : BeginsSequence (c :: rest)
      · obtain ⟨s, hs, after, htext⟩ := h
        rw [← htext, stripFrom_append_of_isSequence hs]
        obtain ⟨tail, rfl, -⟩ := hs.exists_cons
        have hshorter : after.length < (c :: rest).length := by
          rw [← htext, List.length_append, List.length_cons]
          omega
        exact .sequence hs (ih _ hshorter after rfl)
      · rw [stripFrom_cons_of_not_beginsSequence h]
        exact .char h (ih _ (Nat.lt_succ_self _) rest rfl)

/-- What is left is the text with something left out. -/
theorem Strips.sublist (h : Strips text left) : left.Sublist text := by
  induction h with
  | nil => exact .slnil
  | sequence _ _ ih => exact ih.trans (List.sublist_append_right _ _)
  | char _ _ ih => exact ih.cons_cons _

/-- A text stays as it is if it has no sequence. -/
theorem Strips.eq_iff (h : Strips text left) : left = text ↔ ¬HasSequence text := by
  induction h with
  | nil => exact iff_of_true rfl not_hasSequence_nil
  | @sequence s rest left hs h _ =>
    refine iff_of_false (fun heq => ?_) (not_not.mpr ⟨s, hs, (List.prefix_append s rest).isInfix⟩)
    have hlength := h.sublist.length_le
    obtain ⟨tail, rfl, -⟩ := hs.exists_cons
    rw [heq, List.length_append, List.length_cons] at hlength
    omega
  | char hc _ ih => rw [List.cons_inj_right, ih, hasSequence_cons_iff hc]

end Stripping

/-! ## What is taken out -/

/-- Whether a place of a text lies in one of its sequences. -/
def IsInSequence (text : List Char) (p : Nat) : Prop :=
  ∃ before s after, IsSequence s ∧ text = before ++ (s ++ after) ∧
    before.length ≤ p ∧ p < before.length + s.length

section Places

variable {s text left rest : List Char} {c : Char} {p : Nat}

/-- A text before moves the places in sequences along. -/
theorem IsInSequence.append_left (h : IsInSequence rest p) (s : List Char) :
    IsInSequence (s ++ rest) (s.length + p) := by
  obtain ⟨before, t, after, ht, rfl, hle, hlt⟩ := h
  refine ⟨s ++ before, t, after, ht, by rw [List.append_assoc], ?_, ?_⟩
  · rw [List.length_append]
    omega
  · rw [List.length_append]
    omega

/-- No sequence reaches over the end of another: which places after it are in sequences, the rest
tells alone. -/
theorem isInSequence_append_iff (hs : IsSequence s) :
    IsInSequence (s ++ rest) (s.length + p) ↔ IsInSequence rest p := by
  refine ⟨?_, fun h => h.append_left s⟩
  rintro ⟨before, t, after, ht, htext, hle, hlt⟩
  rcases List.append_eq_append_iff.mp htext with ⟨middle, rfl, hrest⟩ | ⟨middle, hmiddle, hrest⟩
  · rw [List.length_append] at hle hlt
    exact ⟨middle, t, after, ht, hrest, by omega, by omega⟩
  · cases middle with
    | nil =>
      rw [List.append_nil] at hmiddle
      subst hmiddle
      exact ⟨[], t, after, ht, hrest.symm, Nat.zero_le p, by rw [List.length_nil]; omega⟩
    | cons d middle =>
      -- A sequence that begins in the first one is the first one, which ends before the place.
      obtain ⟨tail, rfl, -⟩ := ht.exists_cons
      obtain ⟨rfl, -⟩ := List.cons.inj hrest
      cases before with
      | nil =>
        rw [hs.eq_of_append ht htext, List.length_nil] at hlt
        omega
      | cons c before =>
        subst hmiddle
        exact absurd hs (not_isSequence_cons (List.mem_append_right before List.mem_cons_self))

/-- A character at which no sequence begins moves the places in sequences along. -/
theorem isInSequence_cons_iff (hc : ¬BeginsSequence (c :: rest)) :
    IsInSequence (c :: rest) (p + 1) ↔ IsInSequence rest p := by
  constructor
  · rintro ⟨before, s, after, hs, htext, hle, hlt⟩
    cases before with
    | nil => exact absurd ⟨s, hs, after, htext.symm⟩ hc
    | cons d before =>
      obtain ⟨-, rfl⟩ := List.cons.inj htext
      rw [List.length_cons] at hle hlt
      exact ⟨before, s, after, hs, rfl, by omega, by omega⟩
  · intro h
    rw [Nat.add_comm]
    exact h.append_left [c]

/-- A character at which no sequence begins is in none at the beginning of a text. -/
theorem not_isInSequence_zero (hc : ¬BeginsSequence (c :: rest)) :
    ¬IsInSequence (c :: rest) 0 := by
  rintro ⟨before, s, after, hs, htext, hle, -⟩
  rw [List.length_eq_zero_iff.mp (Nat.le_zero.mp hle)] at htext
  exact hc ⟨s, hs, after, htext.symm⟩

open Classical in
/-- What is left are the characters at the places outside of all sequences. -/
theorem Strips.eq_itemsAt (h : Strips text left) :
    left = itemsAt (fun p => ¬IsInSequence text p) text := by
  induction h with
  | nil => rfl
  | @sequence s rest left hs _ ih =>
    have hnone : itemsAt (fun p => ¬IsInSequence (s ++ rest) p) s = [] :=
      itemsAt_eq_nil fun p hp => not_not.mpr
        ⟨[], s, rest, hs, rfl, Nat.zero_le p, by rwa [List.length_nil, Nat.zero_add]⟩
    rw [itemsAt_append, hnone, List.nil_append, ih]
    exact itemsAt_congr fun p _ => not_congr (isInSequence_append_iff hs).symm
  | char hc _ ih =>
    rw [itemsAt_cons, if_pos (not_isInSequence_zero hc), ih]
    exact congrArg _ (itemsAt_congr fun p _ => not_congr (isInSequence_cons_iff hc).symm)

end Places

/-! ## What is left over -/

/-- A text with sequences put anywhere between its characters. -/
inductive IsSpread : List Char → List Char → Prop
  | nil : IsSpread [] []
  | char {c : Char} {x spread : List Char} (h : IsSpread x spread) : IsSpread (c :: x) (c :: spread)
  | sequence {s x spread : List Char} (hs : IsSequence s) (h : IsSpread x spread) :
    IsSpread x (s ++ spread)

/-- A sequence that is interrupted: others stand between its characters. -/
def IsInterrupted (s : List Char) : Prop :=
  ∃ parameters inner : List Char, (∀ c ∈ parameters, isParameter c = true) ∧
    IsSpread ('[' :: parameters) inner ∧ inner ≠ '[' :: parameters ∧
    s = escape :: (inner ++ ['m'])

/-- A text has a sequence that is interrupted. -/
def HasInterrupted (text : List Char) : Prop := ∃ s, IsInterrupted s ∧ s <:+: text

section Interruptions

variable {s x spread text left rest : List Char} {c : Char}

/-- Of a text with sequences spread in it the text is left. -/
theorem IsSpread.stripFrom_append (h : IsSpread x spread) (hx : escape ∉ x) (rest : List Char) :
    stripFrom 0 (spread ++ rest) = x ++ stripFrom 0 rest := by
  induction h with
  | nil => rfl
  | char _ ih =>
    obtain ⟨hc, hx⟩ := not_or.mp (mt List.mem_cons.mpr hx)
    rw [List.cons_append, stripFrom_cons (Ne.symm hc), ih hx, List.cons_append]
  | sequence hs _ ih => rw [List.append_assoc, stripFrom_append_of_isSequence hs, ih hx]

/-- Before the first sequence that was put in, the characters are those of the text. -/
theorem IsSpread.exists_escape (h : IsSpread x spread) (hne : spread ≠ x) :
    ∃ before after, spread = before ++ escape :: after ∧ before <+: x := by
  induction h with
  | nil => exact absurd rfl hne
  | @char c x spread _ ih =>
    obtain ⟨before, after, rfl, hbefore⟩ := ih fun heq => hne (congrArg (c :: ·) heq)
    exact ⟨c :: before, after, rfl, (List.prefix_cons_inj c).mpr hbefore⟩
  | sequence hs _ _ =>
    obtain ⟨tail, rfl, -⟩ := hs.exists_cons
    exact ⟨[], _, rfl, List.nil_prefix⟩

/-- What is left before a character stood before it, with sequences between its characters. -/
theorem Strips.exists_isSpread (h : Strips text left) (hleft : left = x ++ c :: rest) :
    ∃ spread after, text = spread ++ c :: after ∧ IsSpread x spread := by
  induction h generalizing x with
  | nil => exact absurd hleft (by simp)
  | @sequence s _ _ hs _ ih =>
    obtain ⟨spread, after, rfl, hspread⟩ := ih hleft
    exact ⟨s ++ spread, after, by rw [List.append_assoc], .sequence hs hspread⟩
  | char _ _ ih =>
    cases x with
    | nil =>
      obtain ⟨rfl, -⟩ := List.cons.inj hleft
      exact ⟨[], _, rfl, .nil⟩
    | cons d x =>
      obtain ⟨rfl, hrest⟩ := List.cons.inj hleft
      obtain ⟨spread, after, rfl, hspread⟩ := ih hrest
      exact ⟨_ :: spread, after, rfl, .char hspread⟩

/-- A sequence that is left over was interrupted. -/
theorem Strips.hasInterrupted (h : Strips text left) (hleft : HasSequence left) :
    HasInterrupted text := by
  induction h with
  | nil => exact absurd hleft not_hasSequence_nil
  | sequence _ _ ih =>
    obtain ⟨t, ht, hpart⟩ := ih hleft
    exact ⟨t, ht, hpart.trans (List.suffix_append _ _).isInfix⟩
  | @char c rest left hc h ih =>
    obtain ⟨s, hs, hpart⟩ := hleft
    rcases List.infix_cons_iff.mp hpart with ⟨more, hbegins⟩ | hpart
    · -- The sequence begins with a character at which none began in the text.
      obtain ⟨parameters, hparameters, rfl⟩ := hs
      obtain ⟨rfl, hrest⟩ := List.cons.inj hbegins
      have hletter : left = '[' :: parameters ++ 'm' :: more := by
        rw [← hrest]
        simp
      obtain ⟨inner, after, rfl, hinner⟩ := h.exists_isSpread hletter
      refine ⟨escape :: (inner ++ ['m']), ⟨parameters, inner, hparameters, hinner, ?_, rfl⟩,
        ⟨[], after, by simp⟩⟩
      rintro rfl
      exact hc ⟨_, ⟨parameters, hparameters, rfl⟩, after, by simp⟩
    · obtain ⟨t, ht, hpart⟩ := ih ⟨s, hs, hpart⟩
      exact ⟨t, ht, List.infix_cons hpart⟩

/-- What is left of a text does not depend on what follows, if that begins as a sequence does. -/
theorem Strips.stripFrom_append_escape (h : Strips text left) (rest : List Char) :
    stripFrom 0 (text ++ escape :: rest) = left ++ stripFrom 0 (escape :: rest) := by
  induction h with
  | nil => rfl
  | sequence hs _ ih => rw [List.append_assoc, stripFrom_append_of_isSequence hs, ih]
  | char hc _ ih =>
    rw [List.cons_append, stripFrom_cons_of_not_beginsSequence (mt beginsSequence_of_append hc), ih,
      List.cons_append]

/-- No sequence begins with an interrupted one, and what is left of it is a sequence. -/
theorem IsInterrupted.exists_isSequence (h : IsInterrupted s) :
    ∃ t, IsSequence t ∧ ∀ rest, stripFrom 0 (s ++ rest) = t ++ stripFrom 0 rest := by
  obtain ⟨parameters, inner, hparameters, hinner, hne, rfl⟩ := h
  refine ⟨escape :: '[' :: (parameters ++ ['m']), ⟨parameters, hparameters, rfl⟩, fun rest => ?_⟩
  have hletter : 'm' ∉ '[' :: parameters := notMem_parameters hparameters (by decide) (by decide)
  have hescape : escape ∉ '[' :: parameters :=
    notMem_parameters hparameters (by decide) (by decide)
  have hnone : ¬BeginsSequence (escape :: (inner ++ 'm' :: rest)) := by
    obtain ⟨before, after, rfl, hbefore⟩ := hinner.exists_escape hne
    rw [List.append_assoc, List.cons_append]
    intro hbegins
    obtain ⟨t, ht, hprefix⟩ := beginsSequence_of_append hbegins
    obtain ⟨tail, rfl, -, hmem⟩ := ht.exists_cons
    have htail := (List.prefix_cons_inj escape).mp hprefix
    exact hletter (hbefore.subset (htail.subset hmem))
  have htext : escape :: (inner ++ ['m']) ++ rest = escape :: (inner ++ 'm' :: rest) := by simp
  rw [htext, stripFrom_cons_of_not_beginsSequence hnone, hinner.stripFrom_append hescape,
    stripFrom_cons (by decide)]
  simp

/-- A sequence is left over exactly where one of the text was interrupted. -/
theorem hasSequence_stripFrom_iff : HasSequence (stripFrom 0 text) ↔ HasInterrupted text := by
  refine ⟨(strips_stripFrom text).hasInterrupted, ?_⟩
  rintro ⟨s, hs, before, after, rfl⟩
  obtain ⟨t, ht, hstrip⟩ := hs.exists_isSequence
  obtain ⟨parameters, inner, -, -, -, rfl⟩ := hs
  refine ⟨t, ht, stripFrom 0 before, stripFrom 0 after, ?_⟩
  rw [List.append_assoc, List.append_assoc, ← hstrip after, List.cons_append,
    (strips_stripFrom before).stripFrom_append_escape]

end Interruptions

open Classical in
/-- Stripping leaves the characters of a text that are in none of its sequences. A sequence is left
over exactly if one of the text is interrupted by others, and exactly if none is, stripping once
more changes nothing. -/
theorem strip_exact (text : String) :
    (strip text).toList = itemsAt (fun p => ¬IsInSequence text.toList p) text.toList ∧
      (HasSequence (strip text).toList ↔ HasInterrupted text.toList) ∧
      (strip (strip text) = strip text ↔ ¬HasInterrupted text.toList) := by
  have htext : (strip text).toList = stripFrom 0 text.toList := String.toList_ofList
  have hleft : HasSequence (strip text).toList ↔ HasInterrupted text.toList := by
    rw [htext]
    exact hasSequence_stripFrom_iff
  refine ⟨htext.trans (strips_stripFrom _).eq_itemsAt, hleft, ?_⟩
  rw [← hleft, ← String.toList_inj, strip, String.toList_ofList,
    (strips_stripFrom (strip text).toList).eq_iff]

/-- One sequence within another leaves one behind. -/
theorem not_forall_strip :
    ¬∀ text : String, ¬HasSequence (strip text).toList ∧ strip (strip text) = strip text := by
  intro h
  have hreset : IsSequence reset.toList :=
    ⟨['0'], List.forall_mem_singleton.mpr (by decide), by decide⟩
  have hleft : strip "\x1b[\x1b[0m0m" = reset := by decide
  refine (h "\x1b[\x1b[0m0m").1 ?_
  rw [hleft]
  exact ⟨reset.toList, hreset, List.infix_rfl⟩

end DesignTokens.Terminal
