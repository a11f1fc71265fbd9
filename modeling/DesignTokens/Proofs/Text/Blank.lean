import DesignTokens.Text.Blank
import Mathlib.Data.List.DropRight

/-!
# What trimming leaves

What is removed at the end of a text does not reach beyond a character that stays.
-/

namespace DesignTokens.Text

/-- A part of which something stays is the only one to lose anything. -/
theorem dropEndWhile_append {p : Char → Bool} {t : List Char} (h : dropEndWhile p t ≠ [])
    (s : List Char) : dropEndWhile p (s ++ t) = s ++ dropEndWhile p t := by
  have hne : (t.reverse.dropWhile p).isEmpty = false := by
    rw [List.isEmpty_eq_false_iff]
    intro hnil
    exact h (by rw [dropEndWhile, hnil]; rfl)
  unfold dropEndWhile
  rw [List.reverse_append, List.dropWhile_append, hne]
  simp only [Bool.false_eq_true, if_false]
  rw [List.reverse_append, List.reverse_reverse]

/-- A character that stays keeps what is before it. -/
theorem dropEndWhile_append_cons {p : Char → Bool} {c : Char} (hc : p c = false)
    (s t : List Char) : dropEndWhile p (s ++ c :: t) = s ++ c :: dropEndWhile p t := by
  unfold dropEndWhile
  rw [List.reverse_append, List.reverse_cons, List.append_assoc, List.dropWhile_append]
  split
  · rename_i hnil
    rw [List.isEmpty_iff] at hnil
    rw [hnil, List.singleton_append, List.dropWhile_cons_of_neg (Bool.eq_false_iff.mp hc)]
    simp
  · simp

/-- White space in front of a text makes no difference. -/
theorem trim_append_left {blank : List Char} (h : ∀ c ∈ blank, isBlank c = true) (s : List Char) :
    trim (blank ++ s) = trim s := by
  unfold trim
  rw [List.dropWhile_append_of_pos h]

/-- A text that begins with a character that stays loses at its end only. -/
theorem trim_cons {c : Char} (hc : isBlank c = false) (s : List Char) :
    trim (c :: s) = dropEndWhile isBlank (c :: s) := by
  unfold trim
  rw [List.dropWhile_cons_of_neg (Bool.eq_false_iff.mp hc)]

/-- What is trimmed and not empty begins with a character that stays. -/
theorem exists_cons_of_trim {s : List Char} (hne : s ≠ []) (h : trim s = s) :
    ∃ c t, s = c :: t ∧ isBlank c = false := by
  cases s with
  | nil => exact absurd rfl hne
  | cons c t =>
    cases hblank : isBlank c with
    | false => exact ⟨c, t, rfl, hblank⟩
    | true =>
      have hlength := congrArg List.length h
      have hdrop : ((c :: t).dropWhile isBlank).length ≤ t.length := by
        rw [List.dropWhile_cons_of_pos hblank]
        exact (List.dropWhile_suffix isBlank).length_le
      have hend : (trim (c :: t)).length ≤ ((c :: t).dropWhile isBlank).length := by
        unfold trim dropEndWhile
        have hsuffix := (List.dropWhile_suffix isBlank
          (l := ((c :: t).dropWhile isBlank).reverse)).length_le
        rwa [List.length_reverse] at hsuffix ⊢
      rw [List.length_cons] at hlength
      omega

theorem dropEndWhile_dropEndWhile (p : Char → Bool) (s : List Char) :
    dropEndWhile p (dropEndWhile p s) = dropEndWhile p s := by
  unfold dropEndWhile
  rw [List.reverse_reverse, List.dropWhile_idempotent]

/-- What is trimmed has nothing more to trim. -/
theorem trim_trim (s : List Char) : trim (trim s) = trim s := by
  have htrim : trim s = dropEndWhile isBlank (s.dropWhile isBlank) := rfl
  cases hrest : s.dropWhile isBlank with
  | nil =>
    rw [htrim, hrest]
    rfl
  | cons c rest =>
    have hblank : isBlank c = false := by
      have hhead := List.head_dropWhile_not isBlank (l := s) (hrest ▸ List.cons_ne_nil c rest)
      simpa only [hrest, List.head_cons] using hhead
    have hcons : dropEndWhile isBlank (c :: rest) = c :: dropEndWhile isBlank rest :=
      dropEndWhile_append_cons hblank [] rest
    rw [htrim, hrest, hcons, trim_cons hblank]
    exact (dropEndWhile_append_cons hblank [] _).trans
      (congrArg (c :: ·) (dropEndWhile_dropEndWhile isBlank rest))

theorem trim_toList_of_trimString {s : String} (h : trimString s = s) :
    trim s.toList = s.toList := by
  have hlist := congrArg String.toList h
  rwa [trimString, String.toList_ofList] at hlist

theorem trimString_trimString (s : String) : trimString (trimString s) = trimString s := by
  unfold trimString
  rw [String.toList_ofList, trim_trim]

end DesignTokens.Text
