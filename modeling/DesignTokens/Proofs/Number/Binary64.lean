import DesignTokens.Number.Binary64
import Mathlib.Algebra.Order.Field.Power
import Mathlib.Data.Rat.Cast.Order
import Mathlib.Tactic.GCongr
import Mathlib.Tactic.Linarith
import Mathlib.Tactic.LinearCombination
import Mathlib.Tactic.Positivity
import Mathlib.Tactic.Ring

/-!
# Values and ranges of floating-point numbers

A finite number is a fraction, so numbers and whole numbers are compared as fractions. Rounding
scales a quotient by a power of two until its whole part has 53 bits, unless it is below the least
power; so a finite number is never above the greatest one, and a quotient that is not above it never
becomes infinite.
-/

namespace DesignTokens

/-- The powers of two are computed right. -/
theorem powTwo_eq (n : Nat) : powTwo n = 2 ^ n := rfl

/-- Rounding stays below every whole number that the quotient is below. -/
theorem roundDiv_le {num den k : Nat} (hden : 0 < den) (h : num ≤ k * den) :
    roundDiv num den ≤ k := by
  have hwhole : num / den ≤ k := Nat.div_le_of_le_mul (by rwa [Nat.mul_comm])
  unfold roundDiv
  dsimp only
  split
  next hup =>
    rcases Nat.lt_or_eq_of_le hwhole with hless | hsame
    · exact hless
    · -- Nothing is left over of a quotient that is the whole number already.
      have hnum : den * k + num % den = num := hsame ▸ Nat.div_add_mod num den
      rw [Nat.mul_comm] at h
      omega
  next => exact hwhole

namespace Binary64

section Fractions

/-- The fraction that a finite number is. -/
def fraction? : Binary64 → Option (Int × Nat)
  | finite negative m e => some (signed negative (ratio m e).1, (ratio m e).2)
  | _ => none

/-- Whether two fractions have the same value. -/
def SameFraction (a b : Int × Nat) : Prop := a.1 * b.2 = b.1 * a.2

/-- Fractions that are the same as a third one are the same. -/
theorem SameFraction.trans {a b c : Int × Nat} (hab : SameFraction a b) (hbc : SameFraction b c)
    (hb : 0 < b.2) : SameFraction a c := by
  unfold SameFraction at *
  have hne : (b.2 : Int) ≠ 0 := by omega
  refine Int.eq_of_mul_eq_mul_right hne ?_
  linear_combination (c.2 : Int) * hab + (a.2 : Int) * hbc

variable {x y : Binary64}

/-- A scale is positive. -/
theorem scaleUp_pos (e : Int) : 0 < scaleUp e := Nat.pow_pos (by decide)

/-- The fraction of a number has a positive denominator. -/
theorem fraction?_pos {a : Int × Nat} (h : x.fraction? = some a) : 0 < a.2 := by
  cases x with
  | finite negative m e =>
    obtain rfl := Option.some.inj h
    exact scaleUp_pos (-e)
  | infinite negative => cases h
  | nan => cases h

/-- The sign of a product can be taken at a factor. -/
theorem signed_mul (negative : Bool) (n k : Nat) :
    signed negative (n * k) = signed negative n * k := by
  unfold signed
  split <;> simp

/-- A sign does not change the magnitude. -/
theorem natAbs_signed (negative : Bool) (n : Nat) : (signed negative n).natAbs = n := by
  unfold signed
  split <;> simp

/-- Numbers are the same if their fractions are, or if they have none and are equal. -/
theorem same_iff : x.same y = true ↔
    (∃ a b, x.fraction? = some a ∧ y.fraction? = some b ∧ SameFraction a b) ∨
      (x.fraction? = none ∧ x = y) := by
  cases x <;> cases y <;> simp [same, fraction?, SameFraction]

/-- A number is a whole number if nothing is left over in the division. -/
theorem isInt_iff {n : Int} :
    x.isInt n = true ↔ ∃ a, x.fraction? = some a ∧ SameFraction a (n, 1) := by
  cases x with
  | infinite negative => simp [isInt, fraction?]
  | nan => simp [isInt, fraction?]
  | finite negative m e =>
    have hpos := fraction?_pos (x := finite negative m e) rfl
    simp only [isInt, fraction?, SameFraction, Option.some.injEq, exists_eq_left',
      Bool.and_eq_true, beq_iff_eq, Nat.cast_one, mul_one]
    generalize ratio m e = p at hpos ⊢
    obtain ⟨num, den⟩ := p
    constructor
    · rintro ⟨hleft, hwhole⟩
      rw [← hwhole, ← signed_mul, Nat.div_mul_cancel (Nat.dvd_of_mod_eq_zero hleft)]
    · intro hsame
      have hnum : num = n.natAbs * den := by
        rw [← natAbs_signed negative num, hsame, Int.natAbs_mul, Int.natAbs_natCast]
      refine ⟨?_, ?_⟩
      · rw [hnum, Nat.mul_mod_left]
      · rw [hnum, Nat.mul_div_cancel _ hpos]
        rw [hnum, signed_mul] at hsame
        exact Int.eq_of_mul_eq_mul_right (by omega) hsame

end Fractions

section Range

/-- The greatest finite number. -/
def greatest : Nat := (2 ^ 53 - 1) * scaleUp greatestExponent

variable {num den m : Nat} {e : Int} {negative sign : Bool}

/-- A quotient in units of a power of two. -/
def scaled (num den : Nat) (e : Int) : ℚ := num / den * 2 ^ (-e)

/-- The scale of an exponent that is not negative is a power of two. -/
theorem cast_scaleUp {e : Int} (h : 0 ≤ e) : (scaleUp e : ℚ) = 2 ^ e := by
  have he := Int.toNat_of_nonneg h
  conv_rhs => rw [← he, zpow_natCast]
  exact Nat.cast_pow 2 e.toNat

/-- The scales of an exponent and its opposite give a power of two together. -/
theorem scaleUp_div (e : Int) : (scaleUp (-e) : ℚ) / scaleUp e = 2 ^ (-e) := by
  have hsplit : -e = ((-e).toNat : Int) - (e.toNat : Int) := by omega
  conv_rhs => rw [hsplit]
  rw [zpow_sub₀ (by norm_num), zpow_natCast, zpow_natCast]
  unfold scaleUp
  rw [powTwo_eq, powTwo_eq, Nat.cast_pow, Nat.cast_pow, Nat.cast_ofNat]

/-- The scaled fraction is the fraction divided by a power of two. -/
theorem divPow_div (num den : Nat) (e : Int) :
    ((divPow num den e).1 : ℚ) / (divPow num den e).2 = scaled num den e := by
  unfold divPow scaled
  rw [← scaleUp_div, Nat.cast_mul, Nat.cast_mul, mul_div_mul_comm]

/-- A scaled fraction has a positive denominator. -/
theorem divPow_pos (num : Nat) (hden : 0 < den) (e : Int) : 0 < (divPow num den e).2 :=
  Nat.mul_pos hden (scaleUp_pos e)

/-- The whole part of the scaled quotient is below a bound if the quotient is. -/
theorem divPow_lt_iff (hden : 0 < den) (e : Int) (k : Nat) :
    (divPow num den e).1 / (divPow num den e).2 < k ↔ scaled num den e < k := by
  have hpos := divPow_pos num hden e
  rw [← divPow_div, Nat.div_lt_iff_lt_mul hpos, div_lt_iff₀ (by exact_mod_cast hpos)]
  exact_mod_cast Iff.rfl

/-- What is at most a whole number is rounded to at most that. -/
theorem roundDiv_divPow_le (hden : 0 < den) {e : Int} {k : Nat} (h : scaled num den e ≤ k) :
    roundDiv (divPow num den e).1 (divPow num den e).2 ≤ k := by
  have hpos := divPow_pos num hden e
  rw [← divPow_div, div_le_iff₀ (by exact_mod_cast hpos)] at h
  exact roundDiv_le hpos (by exact_mod_cast h)

/-- One exponent less doubles what is scaled. -/
theorem scaled_sub_one (num den : Nat) (e : Int) :
    scaled num den (e - 1) = 2 * scaled num den e := by
  have hsplit : -(e - 1) = -e + 1 := by omega
  unfold scaled
  rw [hsplit, zpow_add_one₀ (by norm_num)]
  ring

/-- A greater exponent makes what is scaled no greater. -/
theorem scaled_le_of_le {e e' : Int} (h : e ≤ e') : scaled num den e' ≤ scaled num den e := by
  unfold scaled
  gcongr
  norm_num

/-- The first guess for the exponent leaves between 52 and 53 bits of the whole part. -/
theorem scaled_guess (hnum : 0 < num) (hden : 0 < den) :
    2 ^ 51 ≤ scaled num den (num.log2 - den.log2 - 52) ∧
      scaled num den (num.log2 - den.log2 - 52) < 2 ^ 53 := by
  have hnumLow : (2 : ℚ) ^ num.log2 ≤ num := by exact_mod_cast Nat.log2_self_le hnum.ne'
  have hnumHigh : (num : ℚ) < 2 ^ (num.log2 + 1) := by exact_mod_cast Nat.lt_log2_self
  have hdenLow : (2 : ℚ) ^ den.log2 ≤ den := by exact_mod_cast Nat.log2_self_le hden.ne'
  have hdenHigh : (den : ℚ) < 2 ^ (den.log2 + 1) := by exact_mod_cast Nat.lt_log2_self
  have hpos : (0 : ℚ) < den := by exact_mod_cast hden
  have hscale : (2 : ℚ) ^ (-((num.log2 : Int) - den.log2 - 52)) =
      2 ^ den.log2 * 2 ^ 52 / 2 ^ num.log2 := by
    have hsplit : -((num.log2 : Int) - den.log2 - 52) =
        (den.log2 + 52 : Nat) - (num.log2 : Nat) := by
      omega
    rw [hsplit, zpow_sub₀ (by norm_num), zpow_natCast, zpow_natCast, pow_add]
  unfold scaled
  rw [hscale, div_mul_div_comm]
  constructor
  · rw [le_div_iff₀ (by positivity)]
    have hproduct := mul_le_mul hdenHigh.le hnumLow (by positivity) (by positivity)
    rw [pow_succ] at hproduct
    linarith
  · rw [div_lt_iff₀ (by positivity)]
    have hproduct := mul_lt_mul hnumHigh hdenLow (by positivity) (by positivity)
    rw [pow_succ] at hproduct
    linarith

/-- The exponent leaves less than 54 bits of the whole part, -/
theorem scaled_exponentFor_lt (hnum : 0 < num) (hden : 0 < den) :
    scaled num den (exponentFor num den) < 2 ^ 53 := by
  obtain ⟨-, hhigh⟩ := scaled_guess hnum hden
  unfold exponentFor
  dsimp only
  refine (scaled_le_of_le (le_max_right _ _)).trans_lt ?_
  split
  next hfew =>
    rw [powTwo_eq, divPow_lt_iff hden] at hfew
    rw [scaled_sub_one]
    push_cast at hfew
    linarith
  next => exact hhigh

/-- and 53 bits where it is not the least one. -/
theorem le_scaled_exponentFor (hnum : 0 < num) (hden : 0 < den)
    (h : leastExponent < exponentFor num den) :
    2 ^ 52 ≤ scaled num den (exponentFor num den) := by
  obtain ⟨hlow, -⟩ := scaled_guess hnum hden
  unfold exponentFor at h ⊢
  dsimp only at h ⊢
  rw [max_eq_right (le_of_lt ((lt_max_iff.mp h).resolve_left (lt_irrefl _)))]
  split
  next =>
    rw [scaled_sub_one]
    linarith
  next hmany =>
    rw [powTwo_eq, divPow_lt_iff hden, not_lt] at hmany
    exact_mod_cast hmany

/-- The mantissa and the exponent of a rounded quotient, before it is found too large or zero. -/
def rounded (num den : Nat) : Nat × Int :=
  let e := exponentFor num den
  let m := roundDiv (divPow num den e).1 (divPow num den e).2
  if m = powTwo 53 then (powTwo 52, e + 1) else (m, e)

/-- A fraction is rounded and then laid out by its exponent; too great a one is infinite. -/
theorem ofRatio_eq (hnum : 0 < num) (hden : 0 < den) (negative : Bool) :
    ofRatio negative num den =
      if greatestExponent < (rounded num den).2 then .infinite negative
      else if (rounded num den).1 = 0 then .finite negative 0 0
      else .finite negative (rounded num den).1 (rounded num den).2 := by
  unfold ofRatio
  rw [if_neg (by omega)]
  rfl

/-- A rounded mantissa fits in its bits. -/
theorem rounded_lt (hnum : 0 < num) (hden : 0 < den) : (rounded num den).1 < 2 ^ 53 := by
  have hbound : scaled num den (exponentFor num den) ≤ (2 ^ 53 : Nat) := by
    exact_mod_cast (scaled_exponentFor_lt hnum hden).le
  have hround := roundDiv_divPow_le hden hbound
  unfold rounded
  dsimp only
  rw [powTwo_eq, powTwo_eq]
  split
  · norm_num
  next hcarry => exact lt_of_le_of_ne hround hcarry

/-- A quotient up to the greatest number stays so in units of a power of two. -/
theorem scaled_le (hden : 0 < den) (h : num ≤ greatest * den) (e : Int) :
    scaled num den e ≤ (2 ^ 53 - 1) * 2 ^ (greatestExponent - e) := by
  have hgreatest : (greatest : ℚ) = (2 ^ 53 - 1) * 2 ^ greatestExponent := by
    unfold greatest
    rw [Nat.cast_mul, cast_scaleUp (by decide)]
    norm_num
  have hquotient : (num : ℚ) / den ≤ greatest := by
    rw [div_le_iff₀ (by exact_mod_cast hden)]
    exact_mod_cast h
  unfold scaled
  rw [sub_eq_add_neg greatestExponent, zpow_add₀ (by norm_num), ← mul_assoc, ← hgreatest]
  gcongr

/-- A quotient that is not above the greatest number has no exponent above the greatest one. -/
theorem rounded_le (hnum : 0 < num) (hden : 0 < den) (h : num ≤ greatest * den) :
    (rounded num den).2 ≤ greatestExponent := by
  have hexponent : exponentFor num den ≤ greatestExponent := by
    by_contra hlarge
    have hleast : leastExponent < exponentFor num den := by
      unfold leastExponent greatestExponent at *
      omega
    have hmany := le_scaled_exponentFor hnum hden hleast
    have hnext : scaled num den (exponentFor num den) ≤ scaled num den (greatestExponent + 1) :=
      scaled_le_of_le (by omega)
    have hfew := scaled_le hden h (greatestExponent + 1)
    rw [sub_add_cancel_left] at hfew
    norm_num at hfew hmany
    linarith
  unfold rounded
  dsimp only
  split
  next hcarry =>
    -- The greatest exponent leaves a mantissa that does not carry.
    refine Int.add_one_le_of_lt (lt_of_le_of_ne hexponent fun hsame => ?_)
    have hfew : scaled num den greatestExponent ≤ (2 ^ 53 - 1 : Nat) := by
      have hscaled := scaled_le hden h greatestExponent
      rw [sub_self, zpow_zero, mul_one] at hscaled
      exact_mod_cast hscaled
    have hround := roundDiv_divPow_le hden hfew
    rw [hsame] at hcarry
    rw [hcarry, powTwo_eq] at hround
    omega
  next => exact hexponent

/-- A quotient that is not above the greatest number is not rounded to an infinite one. -/
theorem ofRatio_ne_infinite (h : num ≤ greatest * den) :
    ofRatio negative num den ≠ .infinite sign := by
  by_cases hzero : num = 0 ∨ den = 0
  · unfold ofRatio
    rw [if_pos hzero]
    nofun
  · obtain ⟨hnum, hden⟩ := not_or.mp hzero
    rw [ofRatio_eq (Nat.pos_of_ne_zero hnum) (Nat.pos_of_ne_zero hden),
      if_neg (not_lt.mpr (rounded_le (Nat.pos_of_ne_zero hnum) (Nat.pos_of_ne_zero hden) h))]
    split <;> nofun

/-- A finite number that a quotient is rounded to has its sign, and is in the range. -/
theorem of_ofRatio (h : ofRatio negative num den = .finite sign m e) :
    sign = negative ∧ m < 2 ^ 53 ∧ e ≤ greatestExponent := by
  by_cases hzero : num = 0 ∨ den = 0
  · unfold ofRatio at h
    rw [if_pos hzero] at h
    cases h
    exact ⟨rfl, by norm_num, by decide⟩
  · obtain ⟨hnum, hden⟩ := not_or.mp hzero
    have hmantissa := rounded_lt (Nat.pos_of_ne_zero hnum) (Nat.pos_of_ne_zero hden)
    rw [ofRatio_eq (Nat.pos_of_ne_zero hnum) (Nat.pos_of_ne_zero hden)] at h
    split at h
    next => cases h
    next hrange =>
      split at h
      · cases h
        exact ⟨rfl, by norm_num, by decide⟩
      · cases h
        exact ⟨rfl, hmantissa, not_lt.mp hrange⟩

/-- A whole number that a number in the range is rounded to is not above the greatest one. -/
theorem roundDiv_ratio_le (hm : m < 2 ^ 53) (he : e ≤ greatestExponent) :
    roundDiv (ratio m e).1 (ratio m e).2 ≤ greatest := by
  refine roundDiv_le (scaleUp_pos (-e)) ?_
  have hmantissa : m ≤ 2 ^ 53 - 1 := by omega
  have hscale : scaleUp e ≤ scaleUp greatestExponent := by
    have hpower := Int.toNat_le_toNat he
    unfold scaleUp
    generalize greatestExponent.toNat = top at hpower
    exact Nat.pow_le_pow_right (by norm_num) hpower
  unfold ratio greatest
  exact (Nat.mul_le_mul hmantissa hscale).trans (Nat.le_mul_of_pos_right _ (scaleUp_pos (-e)))

end Range

end Binary64

end DesignTokens
