import DesignTokens.Diff.Changes
import DesignTokens.Proofs.Pattern.Runs
import DesignTokens.Proofs.Text.Integer
import Mathlib.Data.List.Forall2

/-!
# Lines of a diff

What each line of a diff is read as. The only line that cannot be read is the header of a hunk
whose number has more digits than a number may have; every other line gives exactly the removed or
the added definition that its own text states.
-/

namespace DesignTokens

namespace DiffLine

open Pattern

/-- The definition in a removed line. -/
def removed? : DiffLine → Option TokenLine
  | .removed token => token
  | _ => none

/-- The definition in an added line. -/
def added? : DiffLine → Option TokenLine
  | .added token => token
  | _ => none

/-- The definition that the text of a removed line states. -/
def removedToken? (line : List Char) : Option TokenLine :=
  if isRemoved line then TokenLine.find line.tail else none

/-- The definition that the text of an added line states. -/
def addedToken? (line : List Char) : Option TokenLine :=
  if isAdded line then TokenLine.find line.tail else none

/-- The digits of the number in a line that is the header of a hunk. -/
def hunkDigits? (line : List Char) : Option (List Char) :=
  (hunkHeader.matchAt line).map fun m => m.capture 1

/-- A line is no header of a hunk, or its number has no more digits than a number may have. -/
def NumberFits (line : List Char) : Prop :=
  ∀ digits ∈ hunkDigits? line, digits.length ≤ Text.Integer.digitLimit

instance (line : List Char) : Decidable (NumberFits line) :=
  inferInstanceAs (Decidable (∀ digits ∈ hunkDigits? line, _))

/-- The text that the header of every hunk begins with. -/
def hunkOpening : List Char := "@@ -".toList

private theorem matchAt_hunkHeader (rest : List Char) :
    hunkHeader.matchAt (hunkOpening ++ rest) =
      if rest.takeWhile Text.isDigit = [] then none
      else some ⟨before (hunkOpening ++ rest) (rest.dropWhile Text.isDigit),
        rest.dropWhile Text.isDigit, [⟨1, rest, rest.dropWhile Text.isDigit⟩]⟩ := by
  have hp : "@@ -".toList.isPrefixOf (hunkOpening ++ rest) = true :=
    List.isPrefixOf_iff_prefix.mpr (List.prefix_append _ _)
  have hd : (hunkOpening ++ rest).drop "@@ -".toList.length = rest := List.drop_left
  simp only [matchAt, hunkHeader, exec.eq_4, exec_lit, hp, ite_true, hd, exec.eq_7]
  exact exec_many1 rfl

private theorem matchAt_hunkHeader_eq_none {line : List Char} (h : ¬hunkOpening <+: line) :
    hunkHeader.matchAt line = none := by
  have hp : ¬"@@ -".toList.isPrefixOf line = true := fun he => h (List.isPrefixOf_iff_prefix.mp he)
  simp only [matchAt, hunkHeader, exec.eq_4, exec_lit, hp, Bool.false_eq_true, ite_false]

/-- The number of a hunk is the longest run of digits after the opening of its header. -/
theorem hunkDigits?_append (rest : List Char) :
    hunkDigits? (hunkOpening ++ rest) =
      if rest.takeWhile Text.isDigit = [] then none else some (rest.takeWhile Text.isDigit) := by
  have hcapture : before rest (rest.dropWhile Text.isDigit) = rest.takeWhile Text.isDigit := by
    have hsplit := before_append (rest.takeWhile Text.isDigit) (rest.dropWhile Text.isDigit)
    rwa [List.takeWhile_append_dropWhile] at hsplit
  unfold hunkDigits?
  rw [matchAt_hunkHeader]
  split
  · rfl
  · simp [Match.capture, Match.capture?, Capture.text, hcapture]

/-- A line without the opening is no header. -/
theorem hunkDigits?_eq_none {line : List Char} (h : ¬hunkOpening <+: line) :
    hunkDigits? line = none := by
  rw [hunkDigits?, matchAt_hunkHeader_eq_none h, Option.map_none]

/-- The number of a hunk has at least one digit and consists of digits. -/
theorem digits_of_hunkDigits? {line digits : List Char} (h : hunkDigits? line = some digits) :
    digits ≠ [] ∧ ∀ c ∈ digits, Text.isDigit c = true := by
  by_cases hp : hunkOpening <+: line
  · obtain ⟨rest, rfl⟩ := hp
    rw [hunkDigits?_append] at h
    split at h
    · cases h
    · next hne =>
      obtain rfl := Option.some.inj h
      exact ⟨hne, fun c hc => List.mem_takeWhile_imp hc⟩
  · rw [hunkDigits?_eq_none hp] at h
    cases h

/-- The header of a hunk states no definition. -/
theorem tokens_of_hunkDigits? {line digits : List Char} (h : hunkDigits? line = some digits) :
    removedToken? line = none ∧ addedToken? line = none := by
  by_cases hp : hunkOpening <+: line
  · obtain ⟨rest, rfl⟩ := hp
    exact ⟨rfl, rfl⟩
  · rw [hunkDigits?_eq_none hp] at h
    cases h

/-- The header of a hunk is read as such unless its number has too many digits. -/
theorem read_of_hunkDigits? {line digits : List Char} (h : hunkDigits? line = some digits) :
    read line =
      if Text.Integer.digitLimit < digits.length then
        .error (.value (.tooManyDigits digits.length))
      else .ok (.hunk (Text.ofDigits (digits.filterMap Text.digitValue?))) := by
  obtain ⟨hne, hdigits⟩ := digits_of_hunkDigits? h
  obtain ⟨m, hm, rfl⟩ := Option.map_eq_some_iff.mp h
  unfold read
  rw [hm]
  dsimp only
  rw [Text.Integer.parse_of_digits hne hdigits]
  by_cases hlt : Text.Integer.digitLimit < (m.capture 1).length
  · rw [if_pos hlt, if_pos hlt]
    rfl
  · rw [if_neg hlt, if_neg hlt]
    rfl

/-- A line that is no header is always read. -/
theorem read_of_hunkDigits?_eq_none {line : List Char} (h : hunkDigits? line = none) :
    read line = .ok (if isRemoved line then .removed (TokenLine.find line.tail)
      else if isAdded line then .added (TokenLine.find line.tail)
      else .other !((lit "-").begins line)) := by
  unfold read
  rw [Option.map_eq_none_iff.mp h]
  cases isRemoved line <;> cases isAdded line <;> rfl

/-- A line of a diff has been read as what its text says. -/
structure Reads (line : List Char) (l : DiffLine) : Prop where
  read : DiffLine.read line = .ok l
  removed : l.removed? = removedToken? line
  added : l.added? = addedToken? line

/-- No line is both removed and added. -/
theorem isAdded_eq_false {line : List Char} (h : isRemoved line = true) : isAdded line = false := by
  cases line with
  | nil => rfl
  | cons c s =>
    by_cases hc : c = '-'
    · subst hc
      simp [isAdded, begins_lit, List.isPrefixOf]
    · simp [isRemoved, begins_lit, List.isPrefixOf, beq_false_of_ne (Ne.symm hc)] at h

/-- A line whose number fits is read as what its text says. -/
theorem exists_reads {line : List Char} (h : NumberFits line) : ∃ l, Reads line l := by
  cases hd : hunkDigits? line with
  | some digits =>
    have hle : ¬Text.Integer.digitLimit < digits.length := Nat.not_lt.mpr (h digits hd)
    obtain ⟨hr, ha⟩ := tokens_of_hunkDigits? hd
    have hread := read_of_hunkDigits? hd
    rw [if_neg hle] at hread
    exact ⟨_, hread, hr.symm, ha.symm⟩
  | none =>
    refine ⟨_, read_of_hunkDigits?_eq_none hd, ?_, ?_⟩
    · unfold removedToken?
      cases isRemoved line <;> cases isAdded line <;> rfl
    · unfold addedToken?
      cases hr : isRemoved line
      · cases isAdded line <;> rfl
      · rw [isAdded_eq_false hr]
        rfl

/-- A line whose number does not fit stops the reading. -/
theorem exists_read_eq_error {line : List Char} (h : ¬NumberFits line) :
    ∃ e, read line = .error e := by
  obtain ⟨digits, hd, hlt⟩ : ∃ digits ∈ hunkDigits? line,
      Text.Integer.digitLimit < digits.length := by
    simpa [NumberFits] using h
  exact ⟨_, by rw [read_of_hunkDigits? hd, if_pos hlt]⟩

/-- Lines whose numbers fit are all read. -/
theorem exists_mapM_read {lines : List (List Char)} (h : ∀ line ∈ lines, NumberFits line) :
    ∃ ls, lines.mapM read = .ok ls ∧ List.Forall₂ Reads lines ls := by
  induction lines with
  | nil => exact ⟨[], rfl, .nil⟩
  | cons line lines ih =>
    obtain ⟨l, hl⟩ := exists_reads (h line List.mem_cons_self)
    obtain ⟨ls, hls, hreads⟩ := ih fun m hm => h m (List.mem_cons_of_mem line hm)
    refine ⟨l :: ls, ?_, .cons hl hreads⟩
    rw [List.mapM_cons, hl.read, hls]
    rfl

/-- One line whose number does not fit stops the reading of all. -/
theorem exists_mapM_read_eq_error {lines : List (List Char)} {line : List Char}
    (hmem : line ∈ lines) (h : ¬NumberFits line) : ∃ e, lines.mapM read = .error e := by
  induction lines with
  | nil => cases hmem
  | cons first lines ih =>
    rw [List.mapM_cons]
    cases hfirst : read first with
    | error e => exact ⟨e, rfl⟩
    | ok l =>
      rcases List.mem_cons.mp hmem with rfl | hmem
      · obtain ⟨e, he⟩ := exists_read_eq_error h
        rw [he] at hfirst
        cases hfirst
      · obtain ⟨e, he⟩ := ih hmem
        exact ⟨e, by rw [he]; rfl⟩

end DiffLine

namespace TokenChange

/-- The changes in a diff are those in its lines, as long as these can be read. -/
theorem ofDiff_eq (diff : String) (lookahead : Int) :
    ofDiff diff lookahead =
      ((Text.splitOn '\n' diff.toList).mapM DiffLine.read).map fun ls =>
        ofLines lookahead.toNat 0 ls [] := by
  unfold ofDiff
  by_cases h : diff.isEmpty = true
  · obtain rfl := String.isEmpty_iff.mp h
    rfl
  · rw [if_neg h]
    cases (Text.splitOn '\n' diff.toList).mapM DiffLine.read <;> rfl

end TokenChange

end DesignTokens
