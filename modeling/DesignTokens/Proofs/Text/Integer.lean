import DesignTokens.Text.Integer
import Mathlib.Data.List.TakeWhile

/-!
# Numbers made of digits

A text that consists of digits alone spells a number unless it has more digits than the limit.
-/

namespace DesignTokens.Text

/-- No character of the white space is a digit of some script. -/
theorem isBlank_of_isDigit {c : Char} (h : isDigit c = true) : isBlank c = false := by
  by_cases hlow : c.toNat < 0x80
  · have hrange : 48 ≤ c.toNat ∧ c.toNat ≤ 57 := by
      by_cases hr : 48 ≤ c.toNat ∧ c.toNat ≤ 57
      · exact hr
      · simp [isDigit, digitValue?, hlow, hr] at h
    simp only [isBlank, Bool.or_eq_false_iff, Bool.and_eq_false_iff, decide_eq_false_iff_not,
      beq_eq_false_iff_ne]
    omega
  · obtain ⟨first, hmem, hfirst⟩ :
        ∃ first ∈ digitZeros, first ≤ c.toNat ∧ c.toNat < first + 10 := by
      simp only [isDigit, digitValue?, hlow, ite_false, List.isSome_findSome?,
        List.any_eq_true] at h
      obtain ⟨first, hmem, hsome⟩ := h
      refine ⟨first, hmem, ?_⟩
      by_contra hne
      rw [if_neg (by simpa using hne)] at hsome
      cases hsome
    have hapart : ∀ first ∈ digitZeros, first = 48 ∨
        (0xA0 < first ∧ first + 10 ≤ 0x1680) ∨ (0x1680 < first ∧ first + 10 ≤ 0x2000) ∨
        0x3000 < first := by decide
    have hplace := hapart first hmem
    simp only [isBlank, Bool.or_eq_false_iff, Bool.and_eq_false_iff, decide_eq_false_iff_not,
      beq_eq_false_iff_ne]
    omega

/-- A character that is no digit differs from every digit. -/
theorem ne_of_isDigit {c d : Char} (h : isDigit c = true) (hd : isDigit d = false) : c ≠ d := by
  rintro rfl
  rw [h] at hd
  cases hd

/-- A number is written with digits. -/
theorem isDigit_of_mem_toDigits {n : Nat} {c : Char} (h : c ∈ Nat.toDigits 10 n) :
    isDigit c = true := by
  have hc : c.isDigit = true := Nat.isDigit_of_mem_toDigits (by decide) (by decide) h
  have hrange : 48 ≤ c.toNat ∧ c.toNat ≤ 57 := by
    simpa [Char.isDigit, UInt32.le_iff_toNat_le] using hc
  have hlow : c.toNat < 0x80 := by omega
  simp [isDigit, digitValue?, hlow, hrange]

namespace Integer

/-- Every digit has a value. -/
theorem length_filterMap_digitValue? {s : List Char} (h : ∀ c ∈ s, isDigit c = true) :
    (s.filterMap digitValue?).length = s.length := by
  induction s with
  | nil => rfl
  | cons c s ih =>
    obtain ⟨v, hv⟩ := Option.isSome_iff_exists.mp (h c List.mem_cons_self)
    rw [List.filterMap_cons_some hv, List.length_cons, List.length_cons,
      ih fun d hd => h d (List.mem_cons_of_mem c hd)]

private theorem wellGrouped_of_digits {s : List Char} (hne : s ≠ [])
    (h : ∀ c ∈ s, isDigit c = true) : wellGrouped s = true := by
  have hmark : ∀ c ∈ s, c ≠ '_' := fun c hc => ne_of_isDigit (h c hc) (by decide)
  have hhead : s.head? ≠ some '_' := fun he => hmark _ (List.mem_of_head? he) rfl
  have hlast : s.getLast? ≠ some '_' := fun he => hmark _ (List.mem_of_getLast? he) rfl
  have hpairs : ((s.zip s.tail).all fun p => !(p.1 = '_' && p.2 = '_')) = true := by
    rw [List.all_eq_true]
    rintro ⟨a, b⟩ hp
    have ha : a ≠ '_' := hmark a (List.of_mem_zip hp).1
    simp [ha]
  unfold wellGrouped
  rw [hpairs]
  simp [hne, hhead, hlast]

private theorem magnitude_of_digits {s : List Char} (hne : s ≠ [])
    (h : ∀ c ∈ s, isDigit c = true) :
    magnitude s = if digitLimit < s.length then .error (.tooLong s.length)
      else .ok (ofDigits (s.filterMap digitValue?)) := by
  have hall : ∀ c ∈ s, (isDigit c || decide (c = '_')) = true := fun c hc => by simp [h c hc]
  have htake : s.takeWhile (fun c => isDigit c || decide (c = '_')) = s :=
    List.takeWhile_eq_self_iff.mpr hall
  have hdrop : s.dropWhile (fun c => isDigit c || decide (c = '_')) = [] :=
    List.dropWhile_eq_nil_iff.mpr hall
  unfold magnitude
  simp only [htake, hdrop, wellGrouped_of_digits hne h, length_filterMap_digitValue? h,
    Bool.not_true, Bool.false_eq_true, ite_false, List.all_nil, ite_true]

/-- Digits alone spell the number they stand for, unless they are too many. -/
theorem parse_of_digits {s : List Char} (hne : s ≠ []) (h : ∀ c ∈ s, isDigit c = true) :
    parse s = if digitLimit < s.length then .error (.tooLong s.length)
      else .ok (ofDigits (s.filterMap digitValue?) : Nat) := by
  obtain ⟨c, rest, rfl⟩ := List.exists_cons_of_ne_nil hne
  have hc : isDigit c = true := h c List.mem_cons_self
  have hpad : isPadding c = false := by simp [isPadding, isBlank_of_isDigit hc]
  have hminus : c ≠ '-' := ne_of_isDigit hc (by decide)
  have hplus : c ≠ '+' := ne_of_isDigit hc (by decide)
  have hparse : parse (c :: rest) = (magnitude (c :: rest)).map fun n => (n : Int) := by
    unfold parse
    rw [List.dropWhile_cons_of_neg (by simp [hpad])]
    split
    · next heq => exact absurd (List.cons.inj heq).1 hminus
    · next heq => exact absurd (List.cons.inj heq).1 hplus
    · rfl
  rw [hparse, magnitude_of_digits hne h]
  split <;> rfl

end Integer

end DesignTokens.Text
