import DesignTokens.Proofs.Diff.Account
import DesignTokens.Proofs.Text.Lines
import Mathlib.Algebra.Group.Nat.Defs

/-!
# Hunks

A hunk is a header and lines of two files, each with a sign before its source text. Its changes
tell the definitions of its removed and added lines, except for those whose source text begins with
the sign twice more: with its sign such a line looks like the name of a file, and it is passed
over.
-/

namespace DesignTokens

/-- The file that a line of a hunk belongs to. -/
inductive Side
  /-- Both files. -/
  | context
  /-- The old file alone. -/
  | removed
  /-- The new file alone. -/
  | added
  deriving DecidableEq, Repr

/-- The sign before the source text of a line. -/
def Side.sign : Side → Char
  | context => ' '
  | removed => '-'
  | added => '+'

/-- A line of a hunk. -/
structure HunkLine where
  side : Side
  /-- The line of the file without its end. -/
  source : List Char
  isLine : '\n' ∉ source

namespace HunkLine

/-- The text of a line in a diff. -/
def text (l : HunkLine) : List Char := l.side.sign :: l.source

/-- The definition that a removed line takes out of the old file. -/
def removedToken? (l : HunkLine) : Option TokenLine :=
  if l.side = .removed then TokenLine.find l.source else none

/-- The definition that an added line puts into the new file. -/
def addedToken? (l : HunkLine) : Option TokenLine :=
  if l.side = .added then TokenLine.find l.source else none

/-- A removed or added line whose source text begins with two more of its signs. -/
def LooksLikeFileName (l : HunkLine) : Prop :=
  l.side ≠ .context ∧ [l.side.sign, l.side.sign] <+: l.source

open DiffLine Pattern

instance (l : HunkLine) : Decidable l.LooksLikeFileName := by
  unfold LooksLikeFileName
  infer_instance

/-- No line of a hunk is read as a header. -/
theorem hunkDigits?_text (l : HunkLine) : hunkDigits? l.text = none := by
  refine hunkDigits?_eq_none fun hp => ?_
  obtain ⟨rest, hrest⟩ := hp
  have hsign : '@' = l.side.sign := (List.cons.inj hrest).1
  revert hsign
  cases l.side <;> decide

theorem notMem_text (l : HunkLine) : '\n' ∉ l.text := by
  have hsign : '\n' ≠ l.side.sign := by cases l.side <;> decide
  exact fun hmem => (List.mem_cons.mp hmem).elim hsign l.isLine

/-- A line that looks like the name of a file states no definition to the reader of the diff. -/
theorem tokens_text_of_looksLikeFileName {l : HunkLine} (h : l.LooksLikeFileName) :
    DiffLine.removedToken? l.text = none ∧ DiffLine.addedToken? l.text = none := by
  obtain ⟨side, source, isLine⟩ := l
  obtain ⟨hside, rest, hrest⟩ := h
  cases side with
  | context => exact absurd rfl hside
  | removed =>
    obtain rfl : '-' :: '-' :: rest = source := hrest
    exact ⟨rfl, rfl⟩
  | added =>
    obtain rfl : '+' :: '+' :: rest = source := hrest
    exact ⟨rfl, rfl⟩

/-- Every other line states exactly what its source text states. -/
theorem tokens_text {l : HunkLine} (h : ¬l.LooksLikeFileName) :
    DiffLine.removedToken? l.text = l.removedToken? ∧
      DiffLine.addedToken? l.text = l.addedToken? := by
  obtain ⟨side, source, isLine⟩ := l
  cases side with
  | context => exact ⟨rfl, rfl⟩
  | removed =>
    have hsigns : ['-', '-'].isPrefixOf source = false := Bool.eq_false_iff.mpr fun hp =>
      h ⟨Side.noConfusion, List.isPrefixOf_iff_prefix.mp hp⟩
    have hremoved : isRemoved ('-' :: source) = true := by
      simp [isRemoved, begins_lit, List.isPrefixOf, hsigns]
    have hadded : isAdded ('-' :: source) = false := isAdded_eq_false hremoved
    simp [text, Side.sign, DiffLine.removedToken?, DiffLine.addedToken?, hremoved, hadded,
      removedToken?, addedToken?]
  | added =>
    have hsigns : ['+', '+'].isPrefixOf source = false := Bool.eq_false_iff.mpr fun hp =>
      h ⟨Side.noConfusion, List.isPrefixOf_iff_prefix.mp hp⟩
    have hadded : isAdded ('+' :: source) = true := by
      simp [isAdded, begins_lit, List.isPrefixOf, hsigns]
    have hremoved : isRemoved ('+' :: source) = false := by
      simp [isRemoved, begins_lit, List.isPrefixOf]
    simp [text, Side.sign, DiffLine.removedToken?, DiffLine.addedToken?, hremoved, hadded,
      removedToken?, addedToken?]

end HunkLine

/-- The numbers in the header of a hunk: where it starts and how many lines it has in both files. -/
structure HunkHeader where
  oldStart : Nat
  oldCount : Nat
  newStart : Nat
  newCount : Nat
  deriving DecidableEq, Repr

/-- The text of a header in a diff. -/
def HunkHeader.text (h : HunkHeader) : List Char :=
  ("@@ -" ++ toString h.oldStart ++ "," ++ toString h.oldCount ++ " +" ++ toString h.newStart ++
    "," ++ toString h.newCount ++ " @@").toList

namespace HunkHeader

open DiffLine

private theorem text_eq (h : HunkHeader) :
    h.text = hunkOpening ++ (Nat.toDigits 10 h.oldStart ++ ',' :: (Nat.toDigits 10 h.oldCount ++
      (" +".toList ++ (Nat.toDigits 10 h.newStart ++ ',' :: (Nat.toDigits 10 h.newCount ++
        " @@".toList))))) := by
  simp [text, hunkOpening]

/-- The number in a header is read as it is written. -/
theorem hunkDigits?_text (h : HunkHeader) :
    hunkDigits? h.text = some (Nat.toDigits 10 h.oldStart) := by
  have hdigits : ∀ c ∈ Nat.toDigits 10 h.oldStart, Text.isDigit c = true :=
    fun c hc => Text.isDigit_of_mem_toDigits hc
  have hcomma : ¬Text.isDigit ',' = true := by decide
  rw [text_eq, hunkDigits?_append, List.takeWhile_append_of_pos hdigits,
    List.takeWhile_cons_of_neg hcomma, List.append_nil, if_neg Nat.toDigits_ne_nil]

/-- A header fits as long as its number has no more digits than a number may have. -/
theorem numberFits_text_iff (h : HunkHeader) :
    NumberFits h.text ↔ h.oldStart < 10 ^ Text.Integer.digitLimit := by
  have hpos : 0 < Text.Integer.digitLimit := by decide
  rw [← Nat.length_toDigits_le_iff (by decide) hpos]
  simp only [NumberFits, hunkDigits?_text, Option.mem_some_iff, forall_eq']

theorem notMem_text (h : HunkHeader) : '\n' ∉ h.text := by
  have hdigits : ∀ n, '\n' ∉ Nat.toDigits 10 n := fun n hmem =>
    absurd (Text.isDigit_of_mem_toDigits hmem) (by decide)
  have hopening : '\n' ∉ hunkOpening := by decide
  simp [text_eq, hdigits, hopening]

end HunkHeader

/-- The diff that consists of one hunk. -/
def hunkDiff (h : HunkHeader) (body : List HunkLine) : String :=
  String.ofList (Text.joinWith ['\n'] (h.text :: body.map HunkLine.text))

/-- The changes of a hunk tell the definitions of its removed and added lines, each of them once,
and nothing else. -/
def ReadFaithfully (h : HunkHeader) (body : List HunkLine) (lookahead : Int) : Prop :=
  ∃ changes, TokenChange.ofDiff (hunkDiff h body) lookahead = .ok changes ∧
    (changes.filterMap TokenChange.oldToken?).Perm (body.filterMap HunkLine.removedToken?) ∧
    (changes.filterMap TokenChange.newToken?).Perm (body.filterMap HunkLine.addedToken?)

private theorem of_countP_eq {α : Type} {p q : α → Bool} {xs : List α}
    (h : ∀ x ∈ xs, p x = true → q x = true) (heq : xs.countP p = xs.countP q) :
    ∀ x ∈ xs, q x = true → p x = true := by
  induction xs with
  | nil => simp
  | cons x xs ih =>
    have hrest : ∀ y ∈ xs, p y = true → q y = true := fun y hy => h y (List.mem_cons_of_mem x hy)
    have hle : xs.countP p ≤ xs.countP q := List.countP_mono_left hrest
    have hx := h x List.mem_cons_self
    rw [List.countP_cons, List.countP_cons] at heq
    have hfirst : q x = true → p x = true := by
      intro hq
      by_contra hp
      rw [if_neg hp, if_pos hq] at heq
      omega
    have htail : xs.countP p = xs.countP q := by
      by_cases hp : p x = true
      · rw [if_pos hp, if_pos (hx hp)] at heq
        omega
      · rw [if_neg hp, if_neg (fun hq => hp (hfirst hq))] at heq
        omega
    rintro y (_ | ⟨_, hy⟩)
    · exact hfirst
    · exact ih hrest htail y hy

/-- Where as many values are kept in two ways, and the first keeps none that the second drops, the
second keeps none that the first drops. -/
private theorem eq_none_of_perm {α β : Type} {f g : α → Option β} {xs : List α}
    (h : ∀ x, f x = none ∨ f x = g x) (hperm : (xs.filterMap f).Perm (xs.filterMap g)) {x : α}
    (hx : x ∈ xs) (hf : f x = none) : g x = none := by
  have hcount := hperm.length_eq
  rw [List.length_filterMap_eq_countP, List.length_filterMap_eq_countP] at hcount
  have himp : ∀ y ∈ xs, (f y).isSome = true → (g y).isSome = true := by
    intro y _ hy
    rcases h y with hnone | heq
    · rw [hnone] at hy
      cases hy
    · rwa [← heq]
  have hback := of_countP_eq himp hcount x hx
  rw [hf] at hback
  cases hg : g x with
  | none => rfl
  | some value =>
    rw [hg] at hback
    cases hback rfl

namespace HunkLine

/-- The reader of the diff finds the definition of a line or none. -/
theorem tokens_text_or (l : HunkLine) :
    (DiffLine.removedToken? l.text = none ∨ DiffLine.removedToken? l.text = l.removedToken?) ∧
      (DiffLine.addedToken? l.text = none ∨ DiffLine.addedToken? l.text = l.addedToken?) := by
  by_cases hname : l.LooksLikeFileName
  · obtain ⟨hr, ha⟩ := tokens_text_of_looksLikeFileName hname
    exact ⟨.inl hr, .inl ha⟩
  · obtain ⟨hr, ha⟩ := tokens_text hname
    exact ⟨.inr hr, .inr ha⟩

/-- A line that looks like the name of a file states no definition exactly when its source does
not. -/
theorem find_eq_none_iff {l : HunkLine} (h : l.LooksLikeFileName) :
    TokenLine.find l.source = none ↔ l.removedToken? = none ∧ l.addedToken? = none := by
  obtain ⟨side, source, isLine⟩ := l
  cases side with
  | context => exact absurd rfl h.1
  | removed => exact ⟨fun hnone => ⟨hnone, rfl⟩, fun hnone => hnone.1⟩
  | added => exact ⟨fun hnone => ⟨rfl, hnone⟩, fun hnone => hnone.2⟩

end HunkLine

/-- The lines of a hunk are the lines of its diff. -/
theorem splitOn_hunkDiff (h : HunkHeader) (body : List HunkLine) :
    Text.splitOn '\n' (hunkDiff h body).toList = h.text :: body.map HunkLine.text := by
  rw [hunkDiff, String.toList_ofList]
  refine Text.splitOn_joinWith (List.cons_ne_nil _ _) ?_
  simp only [List.mem_cons, List.mem_map, forall_eq_or_imp, forall_exists_index, and_imp,
    forall_apply_eq_imp_iff₂]
  exact ⟨h.notMem_text, fun l _ => l.notMem_text⟩

/-- The number in the header decides alone whether all lines of a hunk fit. -/
theorem numberFits_hunkDiff_iff (h : HunkHeader) (body : List HunkLine) :
    (∀ line ∈ Text.splitOn '\n' (hunkDiff h body).toList, DiffLine.NumberFits line) ↔
      h.oldStart < 10 ^ Text.Integer.digitLimit := by
  rw [splitOn_hunkDiff, ← h.numberFits_text_iff]
  refine ⟨fun hall => hall h.text List.mem_cons_self, fun hheader => ?_⟩
  simp only [List.mem_cons, List.mem_map, forall_eq_or_imp, forall_exists_index, and_imp,
    forall_apply_eq_imp_iff₂]
  refine ⟨hheader, fun l _ digits hdigits => ?_⟩
  rw [l.hunkDigits?_text] at hdigits
  cases hdigits

/-- The changes of a hunk whose number fits tell the definitions that the reader of the diff
finds. -/
theorem exists_changes_hunkDiff {h : HunkHeader}
    (hfits : h.oldStart < 10 ^ Text.Integer.digitLimit) (body : List HunkLine) (lookahead : Int) :
    ∃ changes, TokenChange.ofDiff (hunkDiff h body) lookahead = .ok changes ∧
      changes.filterMap TokenChange.oldToken? =
        body.filterMap (fun l => DiffLine.removedToken? l.text) ∧
      (changes.filterMap TokenChange.newToken?).Perm
        (body.filterMap fun l => DiffLine.addedToken? l.text) := by
  obtain ⟨changes, origins, hread, haccount⟩ := TokenChange.exists_origins lookahead
    ((numberFits_hunkDiff_iff h body).mpr hfits)
  have hheader := DiffLine.tokens_of_hunkDigits? h.hunkDigits?_text
  have holds := haccount.olds
  have hnews := haccount.news
  rw [splitOn_hunkDiff, List.filterMap_cons_none hheader.1, List.filterMap_map] at holds
  rw [splitOn_hunkDiff, List.filterMap_cons_none hheader.2, List.filterMap_map] at hnews
  exact ⟨changes, hread, holds, hnews⟩

/-- The changes of a hunk tell its definitions exactly when its number fits and no line that looks
like the name of a file states a definition. -/
theorem readFaithfully_iff (h : HunkHeader) (body : List HunkLine) (lookahead : Int) :
    ReadFaithfully h body lookahead ↔
      h.oldStart < 10 ^ Text.Integer.digitLimit ∧
        ∀ l ∈ body, l.LooksLikeFileName → TokenLine.find l.source = none := by
  constructor
  · rintro ⟨changes, hread, hold, hnew⟩
    have hfits : h.oldStart < 10 ^ Text.Integer.digitLimit := by
      by_contra hlarge
      rw [← h.numberFits_text_iff] at hlarge
      have hheader : h.text ∈ h.text :: body.map HunkLine.text := List.mem_cons_self
      obtain ⟨e, he⟩ := DiffLine.exists_mapM_read_eq_error hheader hlarge
      rw [TokenChange.ofDiff_eq, splitOn_hunkDiff, he] at hread
      cases hread
    obtain ⟨found, hfound, hfoundOld, hfoundNew⟩ := exists_changes_hunkDiff hfits body lookahead
    obtain rfl : changes = found := Except.ok.inj (hread.symm.trans hfound)
    refine ⟨hfits, fun l hl hname => (HunkLine.find_eq_none_iff hname).mpr ?_⟩
    obtain ⟨hr, ha⟩ := HunkLine.tokens_text_of_looksLikeFileName hname
    rw [hfoundOld] at hold
    exact ⟨eq_none_of_perm (fun l => l.tokens_text_or.1) hold hl hr,
      eq_none_of_perm (fun l => l.tokens_text_or.2) (hfoundNew.symm.trans hnew) hl ha⟩
  · rintro ⟨hfits, hnone⟩
    obtain ⟨changes, hread, hold, hnew⟩ := exists_changes_hunkDiff hfits body lookahead
    have htokens : ∀ l ∈ body, DiffLine.removedToken? l.text = l.removedToken? ∧
        DiffLine.addedToken? l.text = l.addedToken? := by
      intro l hl
      by_cases hname : l.LooksLikeFileName
      · obtain ⟨hr, ha⟩ := (HunkLine.find_eq_none_iff hname).mp (hnone l hl hname)
        rw [hr, ha]
        exact HunkLine.tokens_text_of_looksLikeFileName hname
      · exact HunkLine.tokens_text hname
    rw [List.filterMap_congr fun l hl => (htokens l hl).1] at hold
    rw [List.filterMap_congr fun l hl => (htokens l hl).2] at hnew
    exact ⟨changes, hread, .of_eq hold, hnew⟩

/-- A removed custom property at the beginning of its line is not reported. -/
theorem not_readFaithfully_customProperty :
    ¬ReadFaithfully ⟨1, 1, 1, 0⟩ [⟨.removed, "--gap: 4px;".toList, by decide⟩] 4 := by
  rintro ⟨changes, hread, hold, -⟩
  have heval : (TokenChange.ofDiff (hunkDiff ⟨1, 1, 1, 0⟩
      [⟨.removed, "--gap: 4px;".toList, by decide⟩]) 4).toOption = some [] := by decide
  rw [hread] at heval
  obtain rfl : changes = [] := Option.some.inj heval
  have hlength := hold.length_eq
  revert hlength
  decide

end DesignTokens
