import DesignTokens.Token.Usage
import Mathlib.Data.List.Pairwise

/-!
# Sorting by count

The items with the greatest counts come first, and those with the same count stay in their order.
The counts of the sorted list depend on nothing but the counts.
-/

namespace DesignTokens

variable {α : Type} {count : α → Int} {xs : List α}

/-- Sorting by count keeps all items. -/
theorem perm_sortByCount (count : α → Int) (xs : List α) : (sortByCount count xs).Perm xs :=
  List.mergeSort_perm _ _

/-- Sorting by count keeps the items that there are. -/
@[simp] theorem mem_sortByCount {x : α} : x ∈ sortByCount count xs ↔ x ∈ xs :=
  (perm_sortByCount count xs).mem_iff

private theorem le_trans_count (x y z : α) (hxy : decide (count y ≤ count x) = true)
    (hyz : decide (count z ≤ count y) = true) : decide (count z ≤ count x) = true := by
  simp only [decide_eq_true_eq] at *
  omega

private theorem le_total_count (x y : α) :
    (decide (count y ≤ count x) || decide (count x ≤ count y)) = true := by
  simp only [Bool.or_eq_true, decide_eq_true_eq]
  omega

/-- Items sorted by count are in falling order of their counts. -/
theorem pairwise_sortByCount (count : α → Int) (xs : List α) :
    (sortByCount count xs).Pairwise fun x y => count y ≤ count x :=
  (List.pairwise_mergeSort le_trans_count le_total_count xs).imp of_decide_eq_true

/-- Items that are in order stay as they are. -/
theorem sortByCount_of_pairwise (h : xs.Pairwise fun x y => count y ≤ count x) :
    sortByCount count xs = xs :=
  List.mergeSort_of_pairwise (h.imp decide_eq_true)

/-- Items with the same count stay in their order. -/
theorem filter_sortByCount (count : α → Int) (n : Int) (xs : List α) :
    (sortByCount count xs).filter (fun x => decide (count x = n)) =
      xs.filter fun x => decide (count x = n) := by
  have hties : (xs.filter fun x => decide (count x = n)).Pairwise fun x y =>
      decide (count y ≤ count x) = true := by
    refine List.pairwise_iff_forall_sublist.mpr fun {x y} hsub => ?_
    have hx := (List.mem_filter.mp (hsub.subset List.mem_cons_self)).2
    have hy := (List.mem_filter.mp (hsub.subset (List.mem_cons_of_mem x List.mem_cons_self))).2
    simp only [decide_eq_true_eq] at hx hy ⊢
    omega
  have hkept : (xs.filter fun x => decide (count x = n)).Sublist (sortByCount count xs) :=
    List.sublist_mergeSort le_trans_count le_total_count hties List.filter_sublist
  -- They are all that the sorted list has with this count.
  have hsub := hkept.filter fun x => decide (count x = n)
  rw [List.filter_filter] at hsub
  simp only [Bool.and_self] at hsub
  have hlength := ((perm_sortByCount count xs).filter fun x => decide (count x = n)).length_eq
  exact (hsub.eq_of_length hlength.symm).symm

/-- What holds of items in their order holds after sorting of those with the same count. -/
theorem pairwise_sortByCount_of_pairwise {r : α → α → Prop} (count : α → Int)
    (h : xs.Pairwise r) : (sortByCount count xs).Pairwise fun x y =>
      count y < count x ∨ count y = count x ∧ r x y := by
  refine List.pairwise_iff_forall_sublist.mpr fun {x y} hsub => ?_
  have hle := List.pairwise_iff_forall_sublist.mp (pairwise_sortByCount count xs) hsub
  rcases Int.lt_or_eq_of_le hle with hlt | heq
  · exact .inl hlt
  · refine .inr ⟨heq, List.pairwise_iff_forall_sublist.mp h ?_⟩
    have hties := hsub.filter fun z => decide (count z = count x)
    rw [filter_sortByCount] at hties
    simpa [heq] using hties.trans List.filter_sublist

/-- The counts in order depend on the counts alone. -/
theorem map_sortByCount_of_perm {β : Type} {count' : β → Int} {ys : List β}
    (h : (xs.map count).Perm (ys.map count')) :
    (sortByCount count xs).map count = (sortByCount count' ys).map count' := by
  have hantisymm : ∀ m n : Int, m ∈ (sortByCount count xs).map count →
      n ∈ (sortByCount count' ys).map count' → n ≤ m → m ≤ n → m = n := by
    intro m n _ _ hnm hmn
    omega
  refine List.Perm.eq_of_pairwise hantisymm ?_ ?_ ?_
  · exact List.pairwise_map.mpr (pairwise_sortByCount count xs)
  · exact List.pairwise_map.mpr (pairwise_sortByCount count' ys)
  · exact ((perm_sortByCount count xs).map count).trans
      (h.trans ((perm_sortByCount count' ys).map count').symm)

end DesignTokens
