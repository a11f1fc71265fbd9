import DesignTokens.Proofs.Number.Binary64
import DesignTokens.Token.Tally
import Mathlib.Algebra.BigOperators.Group.List.Basic

/-!
# Totals by key

Two values that are the same key are either the same value or numbers of the same value, so being
the same key is an equivalence on the values that can be keys. A tally is then a table: whatever
the order of what is counted, the total of a key is the sum of the amounts counted for it.
-/

namespace DesignTokens

section Sums

variable {α β : Type}

/-- The sum does not depend on the order. -/
theorem sumOf_perm {xs ys : List Int} (h : xs.Perm ys) : sumOf xs = sumOf ys := h.sum_eq

/-- A sum of sums is the sum of both. -/
theorem sumOf_map_add (f g : α → Int) (xs : List α) :
    sumOf (xs.map fun x => f x + g x) = sumOf (xs.map f) + sumOf (xs.map g) := List.sum_map_add

/-- Zeros add up to zero. -/
@[simp] theorem sumOf_map_zero (xs : List α) : sumOf (xs.map fun _ => 0) = 0 := List.sum_map_zero

/-- A sum over parts is the sum of the sums of the parts. -/
theorem sumOf_map_flatMap (f : α → List β) (g : β → Int) (xs : List α) :
    sumOf ((xs.flatMap f).map g) = sumOf (xs.map fun x => sumOf ((f x).map g)) := by
  induction xs with
  | nil => rfl
  | cons x xs ih =>
    rw [List.flatMap_cons, List.map_append, sumOf_append, ih, List.map_cons, sumOf_cons]

end Sums

namespace Value

open Binary64 (SameFraction)

variable {u v w : Value}

/-- The fraction that a key stands for, where it is a finite number. -/
def fraction? : Value → Option (Int × Nat)
  | real x => x.fraction?
  | v => v.asInt?.map fun n => (n, 1)

/-- The fraction of a value has a positive denominator. -/
theorem fraction?_pos {a : Int × Nat} (h : v.fraction? = some a) : 0 < a.2 := by
  cases v with
  | real x => exact Binary64.fraction?_pos h
  | bool b =>
    cases h
    exact Nat.one_pos
  | int n =>
    cases h
    exact Nat.one_pos
  | _ => cases h

/-- Values are the same key if they are numbers of the same value, and otherwise if they are the
same value. -/
theorem sameKey_iff : v.sameKey w = true ↔
    (∃ a b, v.fraction? = some a ∧ w.fraction? = some b ∧ SameFraction a b) ∨
      (v.fraction? = none ∧ v.isKey = true ∧ v = w) := by
  cases v <;> cases w <;>
    simp [sameKey, fraction?, asInt?, isKey, Binary64.same_iff, Binary64.isInt_iff, SameFraction]

/-- To be the same key is symmetric. -/
theorem sameKey_symm (h : v.sameKey w = true) : w.sameKey v = true := by
  rw [sameKey_iff] at h ⊢
  rcases h with ⟨a, b, hv, hw, hab⟩ | ⟨hv, hkey, rfl⟩
  · exact .inl ⟨b, a, hw, hv, hab.symm⟩
  · exact .inr ⟨hv, hkey, rfl⟩

/-- To be the same key is transitive. -/
theorem sameKey_trans (huv : u.sameKey v = true) (hvw : v.sameKey w = true) :
    u.sameKey w = true := by
  rw [sameKey_iff] at huv hvw ⊢
  rcases huv with ⟨a, b, hu, hv, hab⟩ | ⟨hu, hkey, rfl⟩
  · rcases hvw with ⟨b', c, hv', hw, hbc⟩ | ⟨hv', -⟩
    · rw [hv] at hv'
      obtain rfl := Option.some.inj hv'
      exact .inl ⟨a, c, hu, hw, hab.trans hbc (fraction?_pos hv)⟩
    · rw [hv] at hv'
      cases hv'
  · exact hvw

/-- The same keys are the same as the same values. -/
theorem sameKey_congr (h : u.sameKey v = true) (w : Value) : u.sameKey w = v.sameKey w :=
  Bool.eq_iff_iff.mpr ⟨sameKey_trans (sameKey_symm h), sameKey_trans h⟩

end Value

namespace Tally

/-- Whether something was counted for a key. -/
def has (t : Tally) (key : Value) : Bool := t.any fun e => e.1.sameKey key

/-- Tallies that are the same table: they have the same keys, with the same totals. -/
def Same (t t' : Tally) : Prop :=
  ∀ key, t.has key = t'.has key ∧ t.total key = t'.total key

variable {t : Tally} {key other : Value} {amount : Int}

/-- The total under a key is in the first row, if that has the key, or in the others. -/
theorem total_cons (e : Value × Int) (t : Tally) (key : Value) :
    total (e :: t) key = if e.1.sameKey key = true then e.2 else total t key := by
  unfold total
  rw [List.find?_cons]
  cases e.1.sameKey key <;> rfl

/-- A tally that is bumped at a key has that key besides those it had. -/
theorem has_bump (t : Tally) (key other : Value) (amount : Int) :
    (bump key amount t).has other = (t.has other || key.sameKey other) := by
  induction t with
  | nil => simp [bump, has]
  | cons e rest ih =>
    unfold has at *
    unfold bump
    split
    next hsame =>
      rw [List.any_cons, List.any_cons, Value.sameKey_congr hsame other]
      cases key.sameKey other <;> simp
    next => rw [List.any_cons, List.any_cons, ih, Bool.or_assoc]

/-- An amount goes to the total of its key and to no other. -/
theorem total_bump (t : Tally) (key other : Value) (amount : Int) :
    (bump key amount t).total other =
      t.total other + if key.sameKey other = true then amount else 0 := by
  induction t with
  | nil =>
    rw [bump, total_cons]
    simp [total]
  | cons e rest ih =>
    unfold bump
    rw [total_cons]
    split
    next hsame =>
      rw [total_cons, Value.sameKey_congr hsame other]
      split <;> simp
    next hother =>
      rw [total_cons, ih]
      by_cases he : e.1.sameKey other = true
      · have hne : ¬key.sameKey other = true := fun hkey =>
          hother (Value.sameKey_trans he (Value.sameKey_symm hkey))
        simp only [if_pos he, if_neg hne, Int.add_zero]
      · simp only [if_neg he]

end Tally

end DesignTokens
