import DesignTokens.Proofs.Diff.Line

/-!
# Where changes come from

Every change of a diff comes from one line, or from a removed and an added line that were paired.
The search for the partner of a removed definition finds the first free line of its name in reach,
and marks it. `Origin.ofLines` follows the reading of the lines and keeps only where each change
comes from; the marks on lines ahead decide which added definitions are still reported.
-/

namespace DesignTokens

namespace TokenChange

/-- The removed definition at an index. -/
def removedAt (lines : List (List Char)) (i : Nat) : Option TokenLine :=
  (lines[i]?).bind DiffLine.removedToken?

/-- The added definition at an index. -/
def addedAt (lines : List (List Char)) (i : Nat) : Option TokenLine :=
  (lines[i]?).bind DiffLine.addedToken?

/-- The lines that a change comes from, by their indices in the diff. -/
inductive Origin
  | deletion (removed : Nat)
  | modification (removed added : Nat)
  | addition (added : Nat)
  deriving DecidableEq, Repr

namespace Origin

/-- The removed line. -/
def removed? : Origin → Option Nat
  | deletion i | modification i _ => some i
  | addition _ => none

/-- The added line. -/
def added? : Origin → Option Nat
  | deletion _ => none
  | modification _ j | addition j => some j

/-- The line at which the change is reported: the removed line if there is one. -/
def own : Origin → Nat
  | deletion i | modification i _ | addition i => i

/-- A change tells exactly what the lines it comes from define. -/
inductive Tells (lines : List (List Char)) : Origin → TokenChange → Prop
  | deletion {i : Nat} {n : Int} {old : TokenLine} : removedAt lines i = some old →
      Tells lines (.deletion i) ⟨old.name, n, some old.value, none⟩
  | modification {i j : Nat} {n : Int} {old new : TokenLine} : removedAt lines i = some old →
      addedAt lines j = some new → new.name = old.name →
      Tells lines (.modification i j) ⟨old.name, n, some old.value, some new.value⟩
  | addition {j : Nat} {n : Int} {new : TokenLine} : addedAt lines j = some new →
      Tells lines (.addition j) ⟨new.name, n, none, some new.value⟩

end Origin

/-! ## The search for a partner -/

/-- Whether the line at an index is marked. -/
def isMarked (taken : List Bool) (j : Nat) : Bool :=
  taken.getD j false

/-- Whether a line is an added definition with a name and is not marked. -/
def isFree (name : String) (lines : List DiffLine) (taken : List Bool) (j : Nat) : Bool :=
  !isMarked taken j && ((lines[j]?).bind DiffLine.added?).any fun token => token.name = name

/-- The index of the first free line with a name in reach. -/
def partnerIndex? (name : String) (reach : Nat) (lines : List DiffLine) (taken : List Bool) :
    Option Nat :=
  (List.range reach).find? (isFree name lines taken)

/-- The marks with one more line marked. -/
def mark : Nat → List Bool → List Bool
  | 0, taken => true :: taken.tail
  | j + 1, taken => taken.headD false :: mark j taken.tail

/-- The first mark is the one at the beginning. -/
theorem isMarked_zero (taken : List Bool) : isMarked taken 0 = taken.headD false := by
  cases taken <;> rfl

/-- The marks of the rest come one place later. -/
theorem isMarked_tail (taken : List Bool) (j : Nat) :
    isMarked taken.tail j = isMarked taken (j + 1) := by
  cases taken <;> rfl

/-- A later line has the same mark whether it is counted from a line or from the next one. -/
theorem isMarked_tail_sub (taken : List Bool) {i b : Nat} (h : i < b) :
    isMarked taken.tail (b - (i + 1)) = isMarked taken (b - i) := by
  have hindex : b - (i + 1) + 1 = b - i := by omega
  rw [isMarked_tail, hindex]

/-- Marking a line changes no other mark. -/
theorem isMarked_mark (j k : Nat) (taken : List Bool) :
    isMarked (mark j taken) k = (decide (k = j) || isMarked taken k) := by
  induction j generalizing k taken with
  | zero =>
    cases k with
    | zero => rfl
    | succ k => cases taken <;> rfl
  | succ j ih =>
    cases k with
    | zero => cases taken <;> rfl
    | succ k =>
      change isMarked (mark j taken.tail) k = _
      rw [ih, isMarked_tail]
      simp only [Nat.add_right_cancel_iff]

/-- The first line is free for a name if it is not taken and adds the name. -/
private theorem isFree_zero (name : String) (line : DiffLine) (lines : List DiffLine)
    (taken : List Bool) : isFree name (line :: lines) taken 0 =
      (!taken.headD false && line.added?.any fun token => token.name = name) := by
  cases taken <;> rfl

/-- The rest of the lines comes one place later. -/
private theorem isFree_succ (name : String) (line : DiffLine) (lines : List DiffLine)
    (taken : List Bool) (j : Nat) :
    isFree name (line :: lines) taken (j + 1) = isFree name lines taken.tail j := by
  simp only [isFree, isMarked_tail, List.getElem?_cons_succ]

/-- The partner is the first line, if that is free, or one of the rest. -/
private theorem partnerIndex?_cons (name : String) (reach : Nat) (line : DiffLine)
    (lines : List DiffLine) (taken : List Bool) :
    partnerIndex? name (reach + 1) (line :: lines) taken =
      if isFree name (line :: lines) taken 0 then some 0
      else (partnerIndex? name reach lines taken.tail).map (· + 1) := by
  have hshift : (isFree name (line :: lines) taken ∘ Nat.succ) = isFree name lines taken.tail :=
    funext fun j => isFree_succ name line lines taken j
  unfold partnerIndex?
  rw [List.range_succ_eq_map, List.find?_cons, List.find?_map, hshift]
  cases isFree name (line :: lines) taken 0 <;> rfl

/-- The partner is taken from the first line, if that is free, or from the rest. -/
private theorem partner?_cons (name : String) (reach : Nat) (line : DiffLine)
    (lines : List DiffLine) (taken : List Bool) :
    partner? name (reach + 1) (line :: lines) taken =
      if isFree name (line :: lines) taken 0 then
        line.added?.map fun token => (token.value, mark 0 taken)
      else (partner? name reach lines taken.tail).map fun p => (p.1, taken.headD false :: p.2) := by
  rw [isFree_zero]
  cases line with
  | added token =>
    cases token with
    | none => simp [partner?, DiffLine.added?]
    | some token => simp [partner?, DiffLine.added?, mark]
  | _ => simp [partner?, DiffLine.added?]

/-- The search gives the value of the first free line in reach and marks that line. -/
theorem partner?_eq (name : String) (reach : Nat) (lines : List DiffLine) (taken : List Bool) :
    partner? name reach lines taken = (partnerIndex? name reach lines taken).bind fun j =>
      ((lines[j]?).bind DiffLine.added?).map fun token => (token.value, mark j taken) := by
  induction reach generalizing lines taken with
  | zero => simp [partner?, partnerIndex?]
  | succ reach ih =>
    cases lines with
    | nil =>
      have hnone : partnerIndex? name (reach + 1) [] taken = none := by
        simp [partnerIndex?, isFree]
      rw [hnone]
      rfl
    | cons line lines =>
      rw [partner?_cons, partnerIndex?_cons]
      split
      · rfl
      · rw [ih]
        cases partnerIndex? name reach lines taken.tail with
        | none => rfl
        | some j => simp [mark, Function.comp_def]

/-- The partner is free and in reach, and no free line with its name comes before it. -/
theorem partnerIndex?_eq_some_iff {name : String} {reach : Nat} {lines : List DiffLine}
    {taken : List Bool} {j : Nat} :
    partnerIndex? name reach lines taken = some j ↔
      isFree name lines taken j = true ∧ j < reach ∧
        ∀ k < j, isFree name lines taken k = false := by
  simp only [partnerIndex?, List.find?_range_eq_some, List.mem_range,
    Bool.not_eq_eq_eq_not, Bool.not_true]

/-- Without a partner no line in reach is free. -/
theorem partnerIndex?_eq_none_iff {name : String} {reach : Nat} {lines : List DiffLine}
    {taken : List Bool} :
    partnerIndex? name reach lines taken = none ↔
      ∀ k < reach, isFree name lines taken k = false := by
  simp [partnerIndex?]

/-! ## Origins of the changes in lines -/

/-- Where the changes in lines come from; the first of the lines has index `i` in the diff. -/
def Origin.ofLines (reach : Nat) : Nat → List DiffLine → List Bool → List Origin
  | _, [], _ => []
  | i, .removed (some token) :: lines, taken =>
    match partnerIndex? token.name reach lines taken.tail with
    | some j => .modification i (i + 1 + j) :: ofLines reach (i + 1) lines (mark j taken.tail)
    | none => .deletion i :: ofLines reach (i + 1) lines taken.tail
  | i, .added (some _) :: lines, taken =>
    if taken.headD false then ofLines reach (i + 1) lines taken.tail
    else .addition i :: ofLines reach (i + 1) lines taken.tail
  | i, _ :: lines, taken => ofLines reach (i + 1) lines taken.tail

/-- The lines of a diff from an index on have been read as what their texts say. -/
def ReadsFrom (raw : List (List Char)) (i : Nat) (lines : List DiffLine) : Prop :=
  List.Forall₂ DiffLine.Reads (raw.drop i) lines

/-- Lines that are read alike remove and add the same tokens. -/
private theorem tokens_getElem? {raw : List (List Char)} {lines : List DiffLine}
    (h : List.Forall₂ DiffLine.Reads raw lines) (j : Nat) :
    (raw[j]?).bind DiffLine.removedToken? = (lines[j]?).bind DiffLine.removed? ∧
      (raw[j]?).bind DiffLine.addedToken? = (lines[j]?).bind DiffLine.added? := by
  induction h generalizing j with
  | nil => exact ⟨rfl, rfl⟩
  | cons hread _ ih =>
    cases j with
    | zero => exact ⟨hread.removed.symm, hread.added.symm⟩
    | succ j => exact ih j

namespace ReadsFrom

variable {raw : List (List Char)} {i : Nat} {line : DiffLine} {lines : List DiffLine}

/-- What has been read states the definitions of the lines it was read from. -/
theorem removedAt_add (h : ReadsFrom raw i lines) (j : Nat) :
    removedAt raw (i + j) = (lines[j]?).bind DiffLine.removed? := by
  rw [removedAt, ← List.getElem?_drop]
  exact (tokens_getElem? h j).1

/-- What the lines from a place on add is what they add at their places. -/
theorem addedAt_add (h : ReadsFrom raw i lines) (j : Nat) :
    addedAt raw (i + j) = (lines[j]?).bind DiffLine.added? := by
  rw [addedAt, ← List.getElem?_drop]
  exact (tokens_getElem? h j).2

/-- The first of the lines from a place on removes what is removed there. -/
theorem removedAt_self (h : ReadsFrom raw i (line :: lines)) : removedAt raw i = line.removed? :=
  h.removedAt_add 0

/-- The first of the lines from a place on adds what is added there. -/
theorem addedAt_self (h : ReadsFrom raw i (line :: lines)) : addedAt raw i = line.added? :=
  h.addedAt_add 0

/-- The rest of the lines is read from the next place on. -/
theorem tail (h : ReadsFrom raw i (line :: lines)) : ReadsFrom raw (i + 1) lines := by
  unfold ReadsFrom at h ⊢
  rw [← List.drop_drop]
  generalize raw.drop i = rest at h
  cases h with
  | cons _ h => exact h

/-- A free line is an added definition with the name, and is not marked. -/
theorem isFree_iff (h : ReadsFrom raw i lines) {name : String} {taken : List Bool} {j : Nat} :
    isFree name lines taken j = true ↔
      isMarked taken j = false ∧ ∃ token, addedAt raw (i + j) = some token ∧ token.name = name := by
  rw [h.addedAt_add]
  simp [isFree, Option.any_eq_true]

/-- A later added definition is marked, or free for the search from the next line on. -/
theorem isMarked_or_isFree (h : ReadsFrom raw i (line :: lines)) {b : Nat} (hb : i < b)
    {name : String} {new : TokenLine} (hnew : addedAt raw b = some new) (hname : new.name = name)
    (taken : List Bool) :
    isMarked taken (b - i) = true ∨ isFree name lines taken.tail (b - (i + 1)) = true := by
  have hplace : i + 1 + (b - (i + 1)) = b := by omega
  rw [h.tail.isFree_iff, hplace, isMarked_tail_sub taken hb]
  cases isMarked taken (b - i) with
  | true => exact .inl rfl
  | false => exact .inr ⟨rfl, new, hnew, hname⟩

/-- A removed definition is not at a line that is none. -/
theorem lt_of_removedAt (h : ReadsFrom raw i (line :: lines)) (hnone : line.removed? = none)
    {a : Nat} (ha : i ≤ a) {old : TokenLine} (hold : removedAt raw a = some old) : i < a := by
  refine Nat.lt_of_le_of_ne ha ?_
  rintro rfl
  rw [h.removedAt_self, hnone] at hold
  cases hold

end ReadsFrom

/-- A line without a definition, as the recursion over the lines meets it. -/
private theorem silent {line : DiffLine} (hr : ∀ token, line = .removed (some token) → False)
    (ha : ∀ token, line = .added (some token) → False) :
    line.removed? = none ∧ line.added? = none ∧
      ∀ reach n lines taken, ∃ n',
        ofLines reach n (line :: lines) taken = ofLines reach n' lines taken.tail := by
  cases line with
  | hunk start => exact ⟨rfl, rfl, fun _ _ _ _ => ⟨_, rfl⟩⟩
  | removed token =>
    cases token with
    | none => exact ⟨rfl, rfl, fun _ _ _ _ => ⟨_, rfl⟩⟩
    | some token => exact (hr token rfl).elim
  | added token =>
    cases token with
    | none => exact ⟨rfl, rfl, fun _ _ _ _ => ⟨_, rfl⟩⟩
    | some token => exact (ha token rfl).elim
  | other advances => exact ⟨rfl, rfl, fun _ _ _ _ => ⟨_, rfl⟩⟩

/-- Every change tells what the lines it comes from define. -/
theorem tells_ofLines {raw : List (List Char)} {i : Nat} {lines : List DiffLine}
    (h : ReadsFrom raw i lines) (reach : Nat) (n : Nat) (taken : List Bool) :
    List.Forall₂ (Origin.Tells raw) (Origin.ofLines reach i lines taken)
      (ofLines reach n lines taken) := by
  fun_induction Origin.ofLines reach i lines taken generalizing n with
  | case1 i taken => exact .nil
  | case2 i old lines taken j hj ih =>
    obtain ⟨hfree, -, -⟩ := partnerIndex?_eq_some_iff.mp hj
    obtain ⟨-, new, hnew, hname⟩ := h.tail.isFree_iff.mp hfree
    have hvalue := h.tail.addedAt_add j
    rw [hnew] at hvalue
    have hpartner : partner? old.name reach lines taken.tail =
        some (new.value, mark j taken.tail) := by
      rw [partner?_eq, hj, Option.bind_some, ← hvalue, Option.map_some]
    simp only [ofLines, hpartner]
    exact .cons (.modification h.removedAt_self hnew hname) (ih h.tail n)
  | case3 i old lines taken hnone ih =>
    have hpartner : partner? old.name reach lines taken.tail = none := by
      rw [partner?_eq, hnone, Option.bind_none]
    simp only [ofLines, hpartner]
    exact .cons (.deletion h.removedAt_self) (ih h.tail n)
  | case4 i new lines taken htaken ih =>
    simp only [ofLines, htaken, ite_true]
    exact ih h.tail (n + 1)
  | case5 i new lines taken htaken ih =>
    simp only [ofLines, htaken, Bool.false_eq_true, ite_false]
    exact .cons (.addition h.addedAt_self) (ih h.tail (n + 1))
  | case6 i line lines taken hr ha ih =>
    obtain ⟨-, -, hskip⟩ := silent hr ha
    obtain ⟨n', hn⟩ := hskip reach n lines taken
    rw [hn]
    exact ih h.tail n'

/-- No change is reported before the first of the lines. -/
theorem Origin.le_own (reach i : Nat) (lines : List DiffLine) (taken : List Bool) :
    ∀ o ∈ Origin.ofLines reach i lines taken, i ≤ o.own := by
  fun_induction Origin.ofLines reach i lines taken with
  | case1 => simp
  | case2 i old lines taken j hj ih =>
    rintro o (_ | ⟨_, ho⟩)
    · exact Nat.le_refl i
    · exact Nat.le_of_succ_le (ih o ho)
  | case3 i old lines taken hnone ih =>
    rintro o (_ | ⟨_, ho⟩)
    · exact Nat.le_refl i
    · exact Nat.le_of_succ_le (ih o ho)
  | case4 i new lines taken htaken ih => exact fun o ho => Nat.le_of_succ_le (ih o ho)
  | case5 i new lines taken htaken ih =>
    rintro o (_ | ⟨_, ho⟩)
    · exact Nat.le_refl i
    · exact Nat.le_of_succ_le (ih o ho)
  | case6 i line lines taken hr ha ih => exact fun o ho => Nat.le_of_succ_le (ih o ho)

/-- Changes are reported in the order of their own lines, one at most for each line. -/
theorem Origin.pairwise_own (reach i : Nat) (lines : List DiffLine) (taken : List Bool) :
    (Origin.ofLines reach i lines taken).Pairwise fun a b => a.own < b.own := by
  fun_induction Origin.ofLines reach i lines taken with
  | case1 => exact .nil
  | case2 i old lines taken j hj ih => exact .cons (Origin.le_own reach (i + 1) lines _) ih
  | case3 i old lines taken hnone ih => exact .cons (Origin.le_own reach (i + 1) lines _) ih
  | case4 i new lines taken htaken ih => exact ih
  | case5 i new lines taken htaken ih => exact .cons (Origin.le_own reach (i + 1) lines _) ih
  | case6 i line lines taken hr ha ih => exact ih

/-- A pair is never wider than the reach. -/
theorem Origin.near (reach i : Nat) (lines : List DiffLine) (taken : List Bool) {a b : Nat}
    (h : .modification a b ∈ Origin.ofLines reach i lines taken) : a < b ∧ b ≤ a + reach := by
  fun_induction Origin.ofLines reach i lines taken with
  | case1 => cases h
  | case2 i old lines taken j hj ih =>
    obtain ⟨-, hreach, -⟩ := partnerIndex?_eq_some_iff.mp hj
    cases h with
    | head => omega
    | tail _ h => exact ih h
  | case3 i old lines taken hnone ih =>
    cases h with
    | tail _ h => exact ih h
  | case4 i new lines taken htaken ih => exact ih h
  | case5 i new lines taken htaken ih =>
    cases h with
    | tail _ h => exact ih h
  | case6 i line lines taken hr ha ih => exact ih h

/-- The places of removals are the first one, if it removes something, and those after it. -/
private theorem filter_range'_cons {raw : List (List Char)} {i : Nat} {line : DiffLine}
    {lines : List DiffLine} (h : ReadsFrom raw i (line :: lines)) :
    ((List.range' i (line :: lines).length).filter fun k => (removedAt raw k).isSome) =
      if line.removed?.isSome then
        i :: (List.range' (i + 1) lines.length).filter fun k => (removedAt raw k).isSome
      else (List.range' (i + 1) lines.length).filter fun k => (removedAt raw k).isSome := by
  rw [List.length_cons, List.range'_succ, List.filter_cons, h.removedAt_self]

/-- The removed lines of the changes are the removed definitions, in their order. -/
theorem Origin.filterMap_removed? {raw : List (List Char)} {i : Nat} {lines : List DiffLine}
    (h : ReadsFrom raw i lines) (reach : Nat) (taken : List Bool) :
    (Origin.ofLines reach i lines taken).filterMap Origin.removed? =
      (List.range' i lines.length).filter fun k => (removedAt raw k).isSome := by
  fun_induction Origin.ofLines reach i lines taken with
  | case1 => rfl
  | case2 i old lines taken j hj ih =>
    rw [filter_range'_cons h, ← ih h.tail]
    rfl
  | case3 i old lines taken hnone ih =>
    rw [filter_range'_cons h, ← ih h.tail]
    rfl
  | case4 i new lines taken htaken ih =>
    rw [filter_range'_cons h, ← ih h.tail]
    rfl
  | case5 i new lines taken htaken ih =>
    rw [filter_range'_cons h, ← ih h.tail]
    rfl
  | case6 i line lines taken hr ha ih =>
    rw [filter_range'_cons h, (silent hr ha).1, ← ih h.tail]
    rfl

/-- Where the first line is no added definition, the unmarked ones are among the other lines. -/
private theorem unmarked_tail {raw : List (List Char)} {i : Nat} {line : DiffLine}
    {lines : List DiffLine} (h : ReadsFrom raw i (line :: lines)) (taken : List Bool)
    (hfirst : line.added? = none ∨ taken.headD false = true) (b : Nat) :
    (i + 1 ≤ b ∧ (addedAt raw b).isSome = true ∧ isMarked taken.tail (b - (i + 1)) = false) ↔
      i ≤ b ∧ (addedAt raw b).isSome = true ∧ isMarked taken (b - i) = false := by
  rcases Nat.lt_trichotomy b i with hb | rfl | hb
  · omega
  · have hself : ¬((addedAt raw b).isSome = true ∧ isMarked taken (b - b) = false) := by
      rintro ⟨hsome, hmark⟩
      rcases hfirst with hnone | htaken
      · rw [h.addedAt_self, hnone] at hsome
        cases hsome
      · rw [Nat.sub_self, isMarked_zero, htaken] at hmark
        cases hmark
    simp only [hself, and_false, iff_false, not_and]
    omega
  · rw [isMarked_tail_sub taken hb]
    exact and_congr_left fun _ => by omega

/-- The added lines of the changes are the added definitions that were not marked before. -/
theorem Origin.mem_added? {raw : List (List Char)} {i : Nat} {lines : List DiffLine}
    (h : ReadsFrom raw i lines) (reach : Nat) (taken : List Bool) (b : Nat) :
    b ∈ (Origin.ofLines reach i lines taken).filterMap Origin.added? ↔
      i ≤ b ∧ (addedAt raw b).isSome = true ∧ isMarked taken (b - i) = false := by
  fun_induction Origin.ofLines reach i lines taken with
  | case1 i taken =>
    have hnone : i ≤ b → addedAt raw b = none := fun hb => by
      rw [← Nat.add_sub_cancel' hb, h.addedAt_add]
      rfl
    simp only [List.filterMap_nil, List.not_mem_nil, false_iff, not_and]
    intro hb hsome
    rw [hnone hb] at hsome
    cases hsome
  | case2 i old lines taken j hj ih =>
    obtain ⟨hfree, -, -⟩ := partnerIndex?_eq_some_iff.mp hj
    obtain ⟨hunmarked, new, hnew, -⟩ := h.tail.isFree_iff.mp hfree
    rw [← unmarked_tail h taken (.inl rfl)]
    simp only [List.filterMap_cons, Origin.added?, List.mem_cons, ih h.tail, isMarked_mark]
    by_cases hb : b = i + 1 + j
    · subst hb
      have hindex : i + 1 + j - (i + 1) = j := by omega
      simp [hindex, hunmarked, hnew]
    · have hindex : i + 1 ≤ b → b - (i + 1) ≠ j := by omega
      simp only [hb, false_or]
      refine and_congr_right fun hle => ?_
      rw [decide_eq_false (hindex hle), Bool.false_or]
  | case3 i old lines taken hnone ih =>
    rw [← unmarked_tail h taken (.inl rfl)]
    exact ih h.tail
  | case4 i new lines taken htaken ih =>
    rw [← unmarked_tail h taken (.inr htaken)]
    exact ih h.tail
  | case5 i new lines taken htaken ih =>
    have hhead : isMarked taken 0 = false := by
      rw [isMarked_zero]
      exact Bool.eq_false_iff.mpr htaken
    simp only [List.filterMap_cons, Origin.added?, List.mem_cons, ih h.tail]
    rcases Nat.lt_trichotomy b i with hb | rfl | hb
    · omega
    · simp [h.addedAt_self, DiffLine.added?, hhead]
    · rw [isMarked_tail_sub taken hb]
      constructor
      · rintro (rfl | ⟨-, hrest⟩)
        · omega
        · exact ⟨Nat.le_of_lt hb, hrest⟩
      · exact fun hrest => .inr ⟨hb, hrest.2⟩
  | case6 i line lines taken hr ha ih =>
    rw [← unmarked_tail h taken (.inl (silent hr ha).2.1)]
    exact ih h.tail

/-- No added line belongs to two changes. -/
theorem Origin.nodup_added? {raw : List (List Char)} {i : Nat} {lines : List DiffLine}
    (h : ReadsFrom raw i lines) (reach : Nat) (taken : List Bool) :
    ((Origin.ofLines reach i lines taken).filterMap Origin.added?).Nodup := by
  fun_induction Origin.ofLines reach i lines taken with
  | case1 => exact .nil
  | case2 i old lines taken j hj ih =>
    simp only [List.filterMap_cons, Origin.added?, List.nodup_cons]
    refine ⟨fun hmem => ?_, ih h.tail⟩
    have hmarked := ((Origin.mem_added? h.tail reach _ _).mp hmem).2.2
    simp [isMarked_mark] at hmarked
  | case3 i old lines taken hnone ih => exact ih h.tail
  | case4 i new lines taken htaken ih => exact ih h.tail
  | case5 i new lines taken htaken ih =>
    simp only [List.filterMap_cons, Origin.added?, List.nodup_cons]
    refine ⟨fun hmem => ?_, ih h.tail⟩
    have hlater := ((Origin.mem_added? h.tail reach _ _).mp hmem).1
    omega
  | case6 i line lines taken hr ha ih => exact ih h.tail

/-- A free line of the same name in reach is never passed over: the removed definition takes it or
one before it, unless an earlier removed definition has it. -/
theorem Origin.first {raw : List (List Char)} {i : Nat} {lines : List DiffLine}
    (h : ReadsFrom raw i lines) (reach : Nat) (taken : List Bool) {a b : Nat} {old new : TokenLine}
    (ha : i ≤ a) (hold : removedAt raw a = some old) (hnew : addedAt raw b = some new)
    (hname : new.name = old.name) (hab : a < b) (hb : b ≤ a + reach) :
    isMarked taken (b - i) = true ∨
      ∃ a' b', .modification a' b' ∈ Origin.ofLines reach i lines taken ∧
        (a' = a ∧ b' ≤ b ∨ a' < a ∧ b' = b) := by
  fun_induction Origin.ofLines reach i lines taken with
  | case1 i taken =>
    rw [← Nat.add_sub_cancel' ha, h.removedAt_add] at hold
    cases hold
  | case2 i line lines taken j hj ih =>
    rcases Nat.eq_or_lt_of_le ha with rfl | hlt
    · obtain rfl : line = old := Option.some.inj (h.removedAt_self.symm.trans hold)
      have hleast := (partnerIndex?_eq_some_iff.mp hj).2.2
      rcases h.isMarked_or_isFree hab hnew hname taken with hmark | hfree
      · exact .inl hmark
      · have hle : ¬b - (i + 1) < j := fun hlt => by
          rw [hleast _ hlt] at hfree
          cases hfree
        exact .inr ⟨i, i + 1 + j, List.mem_cons_self, .inl ⟨rfl, by omega⟩⟩
    · rcases ih h.tail hlt with hmark | ⟨a', b', hmem, hor⟩
      · rw [isMarked_mark, isMarked_tail_sub taken (Nat.lt_trans hlt hab), Bool.or_eq_true,
          decide_eq_true_eq] at hmark
        rcases hmark with heq | hmark
        · exact .inr ⟨i, i + 1 + j, List.mem_cons_self, .inr ⟨hlt, by omega⟩⟩
        · exact .inl hmark
      · exact .inr ⟨a', b', List.mem_cons_of_mem _ hmem, hor⟩
  | case3 i line lines taken hnone ih =>
    rcases Nat.eq_or_lt_of_le ha with rfl | hlt
    · obtain rfl : line = old := Option.some.inj (h.removedAt_self.symm.trans hold)
      rcases h.isMarked_or_isFree hab hnew hname taken with hmark | hfree
      · exact .inl hmark
      · rw [partnerIndex?_eq_none_iff.mp hnone (b - (i + 1)) (by omega)] at hfree
        cases hfree
    · rcases ih h.tail hlt with hmark | ⟨a', b', hmem, hor⟩
      · exact .inl (isMarked_tail_sub taken (Nat.lt_trans hlt hab) ▸ hmark)
      · exact .inr ⟨a', b', List.mem_cons_of_mem _ hmem, hor⟩
  | case4 i line lines taken htaken ih =>
    have hlt := h.lt_of_removedAt rfl ha hold
    rw [← isMarked_tail_sub taken (Nat.lt_trans hlt hab)]
    exact ih h.tail hlt
  | case5 i line lines taken htaken ih =>
    have hlt := h.lt_of_removedAt rfl ha hold
    rw [← isMarked_tail_sub taken (Nat.lt_trans hlt hab)]
    rcases ih h.tail hlt with hmark | ⟨a', b', hmem, hor⟩
    · exact .inl hmark
    · exact .inr ⟨a', b', List.mem_cons_of_mem _ hmem, hor⟩
  | case6 i line lines taken hr hadded ih =>
    have hlt := h.lt_of_removedAt (silent hr hadded).1 ha hold
    rw [← isMarked_tail_sub taken (Nat.lt_trans hlt hab)]
    exact ih h.tail hlt

end TokenChange

end DesignTokens
