import DesignTokens.Proofs.Token.Usage

/-!
# Tables by key

Items are put into a table one after another: each extends the row of its key, or begins a new row
at the end. What comes out has a row for each key, in the order in which the keys are first seen,
made of all items with that key. Sorted by count, rows with equal counts keep this order; a list of
rows is known to be the sorted table by its labels, its rows and its order alone.
-/

namespace DesignTokens

variable {α β κ : Type} [BEq κ] [LawfulBEq κ]

section Rows

/-- The rows made of items, one for each key, in the order in which the keys are first seen. -/
def tableOf (key : α → κ) (row : κ → List α → β) (xs : List α) : List β :=
  (groupByKey key xs).map fun g => row g.1 g.2

/-- Puts an item into a table: it extends the row of its key or begins a new one. -/
def enterRow (key : α → κ) (label : β → κ) (opening : α → β) (extend : β → α → β)
    (table : List β) (x : α) : List β :=
  if (table.map label).contains (key x) then
    table.map fun entry => if label entry == key x then extend entry x else entry
  else table ++ [opening x]

variable {key : α → κ} {label : β → κ} {row : κ → List α → β} {opening : α → β}
  {extend : β → α → β}

/-- An item with the key of the first row extends that row. -/
theorem enterRow_cons_of_eq {table : List β} {entry : β} {x : α} (h : label entry = key x)
    (hnew : key x ∉ table.map label) :
    enterRow key label opening extend (entry :: table) x = extend entry x :: table := by
  have hothers : (table.map fun other => if label other == key x then extend other x else other) =
      table := by
    refine (List.map_congr_left fun other hother => ?_).trans (List.map_id table)
    have hne : label other ≠ key x := fun heq => hnew (heq ▸ List.mem_map_of_mem hother)
    rw [if_neg (by simpa using hne)]
    rfl
  unfold enterRow
  rw [List.map_cons, h, List.contains_cons, beq_self_eq_true, Bool.true_or, if_pos rfl,
    List.map_cons, h, if_pos (beq_self_eq_true _), hothers]

/-- An item with another key goes to the rows after the first. -/
theorem enterRow_cons_of_ne {table : List β} {entry : β} {x : α} (h : label entry ≠ key x) :
    enterRow key label opening extend (entry :: table) x =
      entry :: enterRow key label opening extend table x := by
  unfold enterRow
  rw [List.map_cons, List.contains_cons, beq_false_of_ne h.symm, Bool.false_or, List.map_cons,
    beq_false_of_ne h]
  split <;> rfl

/-- A table has one row for each key, in the order in which they are first seen. -/
theorem tableOf_eq (key : α → κ) (row : κ → List α → β) (xs : List α) : tableOf key row xs =
    (xs.map key).eraseDups.map fun k => row k (xs.filter fun x => key x == k) := by
  simp [tableOf, groupByKey]

/-- The labels are the keys, each of them once. -/
theorem map_label_tableOf (hlabel : ∀ k group, label (row k group) = k) (xs : List α) :
    (tableOf key row xs).map label = (xs.map key).eraseDups := by
  simp [tableOf_eq, Function.comp_def, hlabel]

/-- The rows of a table are those of the groups of its keys. -/
theorem mem_tableOf_iff {xs : List α} {r : β} : r ∈ tableOf key row xs ↔
    ∃ k ∈ xs.map key, row k (xs.filter fun x => key x == k) = r := by
  simp only [tableOf_eq, List.mem_map, List.mem_eraseDups]

/-- A key that is seen has a group. -/
theorem filter_key_ne_nil {xs : List α} {k : κ} (h : k ∈ xs.map key) :
    (xs.filter fun x => key x == k) ≠ [] := by
  obtain ⟨x, hx, rfl⟩ := List.mem_map.mp h
  exact List.ne_nil_of_mem (List.mem_filter.mpr ⟨hx, beq_self_eq_true _⟩)

/-- Where rows count their items, the counts add up to the number of all items. -/
theorem sumOf_tableOf (size : β → Int) (hsize : ∀ k group, size (row k group) = group.length)
    (xs : List α) : sumOf ((tableOf key row xs).map size) = xs.length := by
  rw [← (perm_groupByKey key xs).length_eq, ← sumOf_map_length, tableOf, List.map_map]
  simp only [Function.comp_def, hsize]

/-- A further item changes the table by its row alone. -/
theorem tableOf_concat (hlabel : ∀ k group, label (row k group) = k)
    (hopening : ∀ x, row (key x) [x] = opening x)
    (hextend : ∀ k group x, group ≠ [] → row k (group ++ [x]) = extend (row k group) x)
    (xs : List α) (x : α) : tableOf key row (xs ++ [x]) =
      enterRow key label opening extend (tableOf key row xs) x := by
  have hfilter : ∀ k, ((xs ++ [x]).filter fun y => key y == k) =
      (xs.filter fun y => key y == k) ++ bif key x == k then [x] else [] := fun k => by
    rw [List.filter_append, List.filter_singleton]
  have hseen : ((tableOf key row xs).map label).contains (key x) =
      (xs.map key).contains (key x) := by
    rw [map_label_tableOf hlabel, Bool.eq_iff_iff]
    simp
  unfold enterRow
  rw [hseen, tableOf_eq, tableOf_eq, List.map_append, List.map_singleton, eraseDups_concat]
  split
  next =>
    rw [List.map_map]
    refine List.map_congr_left fun k hk => ?_
    have hne : (xs.filter fun y => key y == k) ≠ [] := filter_key_ne_nil (List.mem_eraseDups.mp hk)
    rcases eq_or_ne (key x) k with rfl | hother
    · simp [hfilter, hlabel, hextend _ _ _ hne]
    · simp [hfilter, hlabel, beq_false_of_ne hother, beq_false_of_ne hother.symm]
  next hnew =>
    have hmem : key x ∉ xs.map key := by simpa using hnew
    have hnone : (xs.filter fun y => key y == key x) = [] := by
      refine List.filter_eq_nil_iff.mpr fun y hy heq => hmem ?_
      rw [← beq_iff_eq.mp heq]
      exact List.mem_map_of_mem hy
    rw [List.map_append, List.map_singleton, hfilter, hnone, beq_self_eq_true, cond_true,
      List.nil_append, hopening]
    refine congrArg (· ++ [opening x]) (List.map_congr_left fun k hk => ?_)
    have hother : key x ≠ k := fun heq => hmem (heq ▸ List.mem_eraseDups.mp hk)
    simp [hfilter, beq_false_of_ne hother]

/-- The table is what comes of putting one item after another into an empty one. -/
theorem foldl_enterRow (hlabel : ∀ k group, label (row k group) = k)
    (hopening : ∀ x, row (key x) [x] = opening x)
    (hextend : ∀ k group x, group ≠ [] → row k (group ++ [x]) = extend (row k group) x)
    (xs : List α) :
    xs.foldl (enterRow key label opening extend) [] = tableOf key row xs := by
  induction xs using List.reverseRecOn with
  | nil => rfl
  | append_singleton xs x ih =>
    rw [List.foldl_append, ih, tableOf_concat hlabel hopening hextend, List.foldl_cons,
      List.foldl_nil]

end Rows

section Order

/-- Rows for keys, each made by its key, the greatest count first; of those with the same count the
one whose key was seen first. -/
structure IsRanking (count : β → Int) (label : β → κ) (keys : List κ) (row : κ → β)
    (rs : List β) : Prop where
  nodup : (rs.map label).Nodup
  mem_labels : ∀ k, k ∈ rs.map label ↔ k ∈ keys
  row_eq : ∀ r ∈ rs, r = row (label r)
  ordered : rs.Pairwise fun r s =>
    count s < count r ∨ count s = count r ∧ keys.idxOf (label r) < keys.idxOf (label s)

variable {count : β → Int} {label : β → κ} {keys : List κ} {row : κ → β} {rs ss : List β}

/-- Rows sorted by count are a ranking. -/
theorem isRanking_sortByCount (hlabel : ∀ k, label (row k) = k) (keys : List κ) :
    IsRanking count label keys row (sortByCount count (keys.eraseDups.map row)) := by
  have hlabels : (keys.eraseDups.map row).map label = keys.eraseDups := by
    simp [Function.comp_def, hlabel]
  have hperm := (perm_sortByCount count (keys.eraseDups.map row)).map label
  rw [hlabels] at hperm
  constructor
  · exact hperm.nodup_iff.mpr (nodup_eraseDups keys)
  · intro k
    rw [hperm.mem_iff, List.mem_eraseDups]
  · intro r hr
    obtain ⟨k, -, rfl⟩ := List.mem_map.mp (mem_sortByCount.mp hr)
    rw [hlabel]
  · have hseen := pairwise_idxOf_eraseDups keys
    rw [← hlabels, List.pairwise_map] at hseen
    exact pairwise_sortByCount_of_pairwise count hseen

omit [LawfulBEq κ] in
/-- There is one such list of rows. -/
theorem IsRanking.unique (hr : IsRanking count label keys row rs)
    (hs : IsRanking count label keys row ss) : rs = ss := by
  have hsub : ∀ {rs ss : List β}, IsRanking count label keys row rs →
      IsRanking count label keys row ss → rs ⊆ ss := by
    intro rs ss hr hs r hmem
    have hlabel : label r ∈ ss.map label :=
      (hs.mem_labels _).mpr ((hr.mem_labels _).mp (List.mem_map_of_mem hmem))
    obtain ⟨s, hmem', heq⟩ := List.mem_map.mp hlabel
    rw [hr.row_eq r hmem, ← heq, ← hs.row_eq s hmem']
    exact hmem'
  have hperm : rs.Perm ss := (List.perm_ext_iff_of_nodup hr.nodup.of_map hs.nodup.of_map).mpr
    fun _ => ⟨fun h => hsub hr hs h, fun h => hsub hs hr h⟩
  -- Two rows cannot each come before the other.
  refine List.Perm.eq_of_pairwise (fun r s _ _ hrs hsr => ?_) hr.ordered hs.ordered hperm
  omega

theorem sortByCount_eq_iff (hlabel : ∀ k, label (row k) = k) :
    sortByCount count (keys.eraseDups.map row) = rs ↔ IsRanking count label keys row rs := by
  constructor
  · rintro rfl
    exact isRanking_sortByCount hlabel keys
  · exact (isRanking_sortByCount hlabel keys).unique

end Order

end DesignTokens
