import Mathlib.Data.List.Forall2
import Mathlib.Data.List.Induction
import Mathlib.Data.List.Nodup
import Mathlib.Data.List.Pairwise
import Mathlib.Data.List.Perm.Subperm

/-!
# Lists item by item

A computation for each item of a list, in order, gives an answer exactly when it does so for every
item. A list without repetitions has each of its items once. Of the places of a list some may be
chosen, and the items at them keep their order.
-/

namespace DesignTokens

variable {α β ε : Type}

/-- What is related to an item of the second list. -/
theorem exists_of_mem_forall₂ {r : α → β → Prop} {xs : List α} {ys : List β} {y : β}
    (h : List.Forall₂ r xs ys) (hy : y ∈ ys) : ∃ x ∈ xs, r x y := by
  induction h with
  | nil => cases hy
  | cons hhead htail ih =>
    rcases List.mem_cons.mp hy with rfl | hy
    · exact ⟨_, List.mem_cons_self, hhead⟩
    · obtain ⟨x, hx, hr⟩ := ih hy
      exact ⟨x, List.mem_cons_of_mem _ hx, hr⟩

/-- Related items contribute the same, up to order. -/
theorem perm_flatMap_of_forall₂ {γ : Type} {r : α → β → Prop} {f : α → List γ} {g : β → List γ}
    {xs : List α} {ys : List β} (h : List.Forall₂ r xs ys)
    (hr : ∀ x y, r x y → (g y).Perm (f x)) : (ys.flatMap g).Perm (xs.flatMap f) := by
  induction h with
  | nil => exact .nil
  | cons hhead htail ih =>
    rw [List.flatMap_cons, List.flatMap_cons]
    exact (hr _ _ hhead).append ih

/-- What related items contribute is the same if they agree. -/
theorem filterMap_eq_of_forall₂ {γ : Type} {r : α → β → Prop} {f : α → Option γ} {g : β → Option γ}
    {xs : List α} {ys : List β} (h : List.Forall₂ r xs ys) (hr : ∀ x y, r x y → g y = f x) :
    ys.filterMap g = xs.filterMap f := by
  induction h with
  | nil => rfl
  | cons hhead _ ih => rw [List.filterMap_cons, List.filterMap_cons, hr _ _ hhead, ih]

/-- Where items contribute lists of their own key, the part of the whole with this key is what the
item contributes. -/
theorem filter_flatten_of_forall₂ {κ : Type} [BEq κ] [LawfulBEq κ] {r : α → List β → Prop}
    {name : α → κ} {key : β → κ} {xs : List α} {yss : List (List β)} (h : List.Forall₂ r xs yss)
    (hnames : (xs.map name).Nodup) (hr : ∀ x ys, r x ys → ∀ y ∈ ys, key y = name x) :
    xs.map (fun x => yss.flatten.filter fun y => key y == name x) = yss := by
  induction h with
  | nil => rfl
  | @cons x ys xs yss hhead htail ih =>
    obtain ⟨hnew, hnames⟩ := List.nodup_cons.mp hnames
    have hown : ∀ y ∈ ys, key y = name x := hr x ys hhead
    have hothers : ∀ y ∈ yss.flatten, key y ∈ xs.map name := by
      intro y hy
      obtain ⟨ys', hys', hy⟩ := List.mem_flatten.mp hy
      obtain ⟨x', hx', hr'⟩ := exists_of_mem_forall₂ htail hys'
      exact List.mem_map.mpr ⟨x', hx', (hr x' ys' hr' y hy).symm⟩
    simp only [List.map_cons, List.flatten_cons, List.filter_append]
    congr 1
    · have hall : (ys.filter fun y => key y == name x) = ys :=
        List.filter_eq_self.mpr fun y hy => beq_iff_eq.mpr (hown y hy)
      have hnone : (yss.flatten.filter fun y => key y == name x) = [] :=
        List.filter_eq_nil_iff.mpr fun y hy heq => hnew (beq_iff_eq.mp heq ▸ hothers y hy)
      rw [hall, hnone, List.append_nil]
    · refine (List.map_congr_left fun x' hx' => ?_).trans (ih hnames)
      have hnone : (ys.filter fun y => key y == name x') = [] := by
        refine List.filter_eq_nil_iff.mpr fun y hy heq => hnew ?_
        rw [← hown y hy, beq_iff_eq.mp heq]
        exact List.mem_map_of_mem hx'
      rw [hnone, List.nil_append]

/-- Where the values that are kept have no repetitions, each of them comes from one item. -/
theorem eq_of_nodup_filterMap {f : α → Option β} {xs : List α} (h : (xs.filterMap f).Nodup)
    {x y : α} (hx : x ∈ xs) (hy : y ∈ xs) {b : β} (hfx : f x = some b) (hfy : f y = some b) :
    x = y := by
  by_contra hne
  have hsymm : Std.Symm fun x y => ∀ b, f x = some b → ∀ b', f y = some b' → b ≠ b' :=
    ⟨fun _ _ hxy b hb b' hb' => (hxy b' hb' b hb).symm⟩
  exact (List.pairwise_filterMap.mp h).forall hx hy hne b hfx b hfy rfl

/-- What the items of lists contribute. -/
theorem flatMap_flatten (xss : List (List α)) (f : α → List β) :
    xss.flatten.flatMap f = xss.flatMap fun xs => xs.flatMap f := by
  induction xss with
  | nil => rfl
  | cons xs xss ih => rw [List.flatten_cons, List.flatMap_append, List.flatMap_cons, ih]

/-- What is found first among all contributions is found first item by item. -/
theorem findSome?_flatMap {γ : Type} (xs : List α) (f : α → List β) (g : β → Option γ) :
    (xs.flatMap f).findSome? g = xs.findSome? fun x => (f x).findSome? g := by
  induction xs with
  | nil => rfl
  | cons x xs ih =>
    rw [List.flatMap_cons, List.findSome?_append, List.findSome?_cons, ih]
    cases (f x).findSome? g <;> rfl

/-- Items that contribute nothing can be left out. -/
theorem flatMap_filter_congr {p : α → Bool} {f g : α → List β} {xs : List α}
    (hkept : ∀ x ∈ xs, p x = true → f x = g x) (hout : ∀ x ∈ xs, p x = false → g x = []) :
    (xs.filter p).flatMap f = xs.flatMap g := by
  induction xs with
  | nil => rfl
  | cons x xs ih =>
    have hrest := ih (fun y hy => hkept y (List.mem_cons_of_mem x hy)) fun y hy =>
      hout y (List.mem_cons_of_mem x hy)
    cases hx : p x with
    | true =>
      rw [List.filter_cons_of_pos hx, List.flatMap_cons, List.flatMap_cons, hrest,
        hkept x List.mem_cons_self hx]
    | false =>
      rw [List.filter_cons_of_neg (by simp [hx]), List.flatMap_cons, hrest,
        hout x List.mem_cons_self hx, List.nil_append]

/-- A list ends in a longest run of items with a property. -/
theorem exists_run (p : α → Prop) [DecidablePred p] (xs : List α) :
    ∃ before run, xs = before ++ run ∧ (∀ x ∈ run, p x) ∧
      ∀ x, before.getLast? = some x → ¬p x := by
  induction xs using List.reverseRecOn with
  | nil => exact ⟨[], [], rfl, nofun, nofun⟩
  | append_singleton xs x ih =>
    by_cases hx : p x
    · obtain ⟨before, run, rfl, hrun, hbefore⟩ := ih
      refine ⟨before, run ++ [x], List.append_assoc _ _ _, fun y hy => ?_, hbefore⟩
      rcases List.mem_append.mp hy with hy | hy
      · exact hrun y hy
      · exact List.mem_singleton.mp hy ▸ hx
    · refine ⟨xs ++ [x], [], (List.append_nil _).symm, nofun, fun y hy => ?_⟩
      rw [List.getLast?_concat] at hy
      exact Option.some.inj hy ▸ hx

/-- What is done depends on what is done for each item. -/
theorem mapM_congr {m : Type → Type} [Monad m] [LawfulMonad m] {f g : α → m β} {xs : List α}
    (h : ∀ x ∈ xs, f x = g x) : xs.mapM f = xs.mapM g := by
  induction xs with
  | nil => rw [List.mapM_nil, List.mapM_nil]
  | cons x xs ih =>
    rw [List.mapM_cons, List.mapM_cons, h x List.mem_cons_self,
      ih fun y hy => h y (List.mem_cons_of_mem x hy)]

/-- Each item has a value, and the values are in order. -/
theorem mapM_eq_some_iff {f : α → Option β} {xs : List α} {ys : List β} :
    xs.mapM f = some ys ↔ List.Forall₂ (fun x y => f x = some y) xs ys := by
  induction xs generalizing ys with
  | nil =>
    rw [List.forall₂_nil_left_iff, List.mapM_nil]
    exact ⟨fun h => (Option.some.inj h).symm, fun h => congrArg some h.symm⟩
  | cons x xs ih =>
    rw [List.mapM_cons, List.forall₂_cons_left_iff]
    simp only [Option.bind_eq_bind, Option.bind_eq_some_iff, Option.pure_def, Option.some.injEq, ih]
    constructor
    · rintro ⟨y, hy, rest, hrest, rfl⟩
      exact ⟨y, rest, hy, hrest, rfl⟩
    · rintro ⟨y, rest, hy, hrest, rfl⟩
      exact ⟨y, hy, rest, hrest, rfl⟩

/-- Each item has an answer, and the answers are in order. -/
theorem mapM_eq_ok_iff {f : α → Except ε β} {xs : List α} {ys : List β} :
    xs.mapM f = .ok ys ↔ List.Forall₂ (fun x y => f x = .ok y) xs ys := by
  induction xs generalizing ys with
  | nil =>
    rw [List.forall₂_nil_left_iff, List.mapM_nil]
    exact ⟨fun h => (Except.ok.inj h).symm, fun h => congrArg Except.ok h.symm⟩
  | cons x xs ih =>
    rw [List.mapM_cons, List.forall₂_cons_left_iff]
    cases hx : f x with
    | error e => simp [bind, Except.bind]
    | ok y =>
      cases hxs : xs.mapM f with
      | error e =>
        have hnone : ∀ rest, ¬ List.Forall₂ (fun x y => f x = .ok y) xs rest := by
          intro rest hrest
          rw [ih.mpr hrest] at hxs
          cases hxs
        simp [bind, Except.bind, hnone]
      | ok rest =>
        have hunique : ∀ others, List.Forall₂ (fun x y => f x = .ok y) xs others ↔
            rest = others := by
          intro others
          rw [← ih, hxs, Except.ok.injEq]
        simp [bind, Except.bind, pure, Except.pure, hunique, @eq_comm _ ys]

/-- What comes after an answer is reached only with that answer. -/
theorem bind_eq_ok_iff {x : Except ε α} {f : α → Except ε β} {b : β} :
    (x >>= f) = .ok b ↔ ∃ a, x = .ok a ∧ f a = .ok b := by
  cases x with
  | error e => simp [bind, Except.bind]
  | ok a => simp [bind, Except.bind]

/-- What is made of an answer. -/
theorem map_eq_ok_iff {x : Except ε α} {f : α → β} {b : β} :
    x.map f = .ok b ↔ ∃ a, x = .ok a ∧ f a = b := by
  cases x with
  | error e => simp [Except.map]
  | ok a => simp [Except.map]

/-- To go on without failing is to change the answer. -/
theorem bind_ok_eq_map (x : Except ε α) (f : α → β) : (x >>= fun a => .ok (f a)) = x.map f := by
  cases x <;> rfl

/-- What is made of the answers for the items is made of all answers. -/
theorem mapM_map_eq_map {γ : Type} (f : α → Except ε β) (g : β → γ) (xs : List α) :
    xs.mapM (fun x => (f x).map g) = (xs.mapM f).map (List.map g) := by
  induction xs with
  | nil => rfl
  | cons x xs ih =>
    rw [List.mapM_cons, List.mapM_cons, ih]
    cases f x with
    | error e => rfl
    | ok y => cases xs.mapM f <;> rfl

/-- The answers are those for the items. -/
theorem mem_iff_of_mapM {f : α → Except ε β} {xs : List α} {ys : List β} (h : xs.mapM f = .ok ys)
    {y : β} : y ∈ ys ↔ ∃ x ∈ xs, f x = .ok y := by
  have hanswers := mapM_eq_ok_iff.mp h
  clear h
  induction hanswers with
  | nil => simp
  | cons hhead htail ih => simp [List.mem_cons, hhead, ih, @eq_comm _ y]

/-- Every item has an answer if the list has. -/
theorem exists_ok_of_mapM {f : α → Except ε β} {xs : List α} {ys : List β}
    (h : xs.mapM f = .ok ys) {x : α} (hx : x ∈ xs) : ∃ y ∈ ys, f x = .ok y := by
  have hanswers := mapM_eq_ok_iff.mp h
  clear h
  induction hanswers with
  | nil => cases hx
  | cons hhead htail ih =>
    rcases List.mem_cons.mp hx with rfl | hx
    · exact ⟨_, List.mem_cons_self, hhead⟩
    · obtain ⟨y, hy, hanswer⟩ := ih hx
      exact ⟨y, List.mem_cons_of_mem _ hy, hanswer⟩

/-- What the answers contribute, said by their items. -/
theorem filterMap_eq_of_mapM {γ : Type} {f : α → Except ε β} {g : β → Option γ}
    {g' : α → Option γ} {xs : List α} {ys : List β} (h : xs.mapM f = .ok ys)
    (hsame : ∀ x y, f x = .ok y → g y = g' x) : ys.filterMap g = xs.filterMap g' :=
  filterMap_eq_of_forall₂ (mapM_eq_ok_iff.mp h) hsame

/-- The list has answers if every item has one. -/
theorem exists_mapM_eq_ok {f : α → Except ε β} {xs : List α} (h : ∀ x ∈ xs, ∃ y, f x = .ok y) :
    ∃ ys, xs.mapM f = .ok ys := by
  induction xs with
  | nil => exact ⟨[], rfl⟩
  | cons x xs ih =>
    obtain ⟨y, hy⟩ := h x List.mem_cons_self
    obtain ⟨ys, hys⟩ := ih fun x' hx' => h x' (List.mem_cons_of_mem x hx')
    exact ⟨y :: ys, mapM_eq_ok_iff.mpr (.cons hy (mapM_eq_ok_iff.mp hys))⟩

/-- Items that are taken with their indices, where what counts as an answer does not depend on the
index. -/
theorem mapM_zipIdx_eq_ok_iff {f : Nat → α → Except ε β} {r : α → β → Prop} {xs : List α}
    {ys : List β} (h : ∀ i x y, f i x = .ok y ↔ r x y) (n : Nat) :
    (xs.zipIdx n).mapM (fun e => f e.2 e.1) = .ok ys ↔ List.Forall₂ r xs ys := by
  have hitems : List.Forall₂ (fun e y => r e.1 y) (xs.zipIdx n) ys ↔ List.Forall₂ r xs ys := by
    rw [← List.forall₂_map_left_iff (f := Prod.fst), List.zipIdx_map_fst]
  simp only [mapM_eq_ok_iff, h, hitems]

/-- A fold over what items contribute goes through the items one after the other. -/
theorem foldlM_flatMap {γ : Type} {m : Type → Type} [Monad m] [LawfulMonad m] (f : α → List β)
    (g : γ → β → m γ) (xs : List α) (c : γ) :
    (xs.flatMap f).foldlM g c = xs.foldlM (fun c x => (f x).foldlM g c) c := by
  induction xs generalizing c with
  | nil => rfl
  | cons x xs ih => simp only [List.flatMap_cons, List.foldlM_append, List.foldlM_cons, ih]

/-- The answer of a test, no if it has none. -/
def passes (f : α → Except ε Bool) (x : α) : Bool :=
  match f x with
  | .ok b => b
  | .error _ => false

/-- A filter that can fail succeeds if every item can be judged, and keeps what passes. -/
private theorem filterAuxM_eq_ok_iff {f : α → Except ε Bool} {xs kept ys : List α} :
    xs.filterAuxM f kept = .ok ys ↔
      (∀ x ∈ xs, ∃ b, f x = .ok b) ∧ ys = (xs.filter (passes f)).reverse ++ kept := by
  induction xs generalizing kept with
  | nil =>
    rw [List.filterAuxM]
    exact ⟨fun h => ⟨fun x hx => absurd hx List.not_mem_nil, (Except.ok.inj h).symm⟩,
      fun h => congrArg Except.ok h.2.symm⟩
  | cons x xs ih =>
    rw [List.filterAuxM]
    cases hx : f x with
    | error e => simp [bind, Except.bind, hx]
    | ok b =>
      have hpasses : passes f x = b := by
        unfold passes
        rw [hx]
      simp only [bind, Except.bind, ih, List.forall_mem_cons, hx, Except.ok.injEq, exists_eq',
        true_and, List.filter_cons, hpasses]
      cases b <;> simp

/-- A list is filtered when each of its items is tested. -/
theorem filterM_eq_ok_iff {f : α → Except ε Bool} {xs ys : List α} :
    xs.filterM f = .ok ys ↔ (∀ x ∈ xs, ∃ b, f x = .ok b) ∧ ys = xs.filter (passes f) := by
  have haux := @filterAuxM_eq_ok_iff α ε f xs [] ys.reverse
  rw [List.append_nil, List.reverse_inj] at haux
  rw [← haux]
  unfold List.filterM
  cases xs.filterAuxM f [] with
  | error e => simp [bind, Except.bind]
  | ok zs => simp [bind, Except.bind, pure, Except.pure, List.reverse_eq_iff]

/-- A filter by two conditions, one of which cannot fail, filters twice. -/
private theorem filterAuxM_and {f : α → Except ε Bool} (p : α → Bool) (xs kept : List α) :
    xs.filterAuxM (fun x => (f x).map (· && p x)) (kept.filter p) =
      (xs.filterAuxM f kept).map (List.filter p) := by
  induction xs generalizing kept with
  | nil => rfl
  | cons x xs ih =>
    rw [List.filterAuxM, List.filterAuxM]
    cases hx : f x with
    | error e => rfl
    | ok b =>
      have hkept : cond (b && p x) (x :: kept.filter p) (kept.filter p) =
          (cond b (x :: kept) kept).filter p := by
        cases b with
        | false => rfl
        | true => cases hp : p x <;> simp [hp]
      exact (congrArg (xs.filterAuxM _) hkept).trans (ih (cond b (x :: kept) kept))

/-- A further test without failures filters what the other test leaves. -/
theorem filterM_and {f : α → Except ε Bool} (p : α → Bool) (xs : List α) :
    xs.filterM (fun x => (f x).map (· && p x)) = (xs.filterM f).map (List.filter p) := by
  unfold List.filterM
  rw [show xs.filterAuxM (fun x => (f x).map (· && p x)) [] = (xs.filterAuxM f []).map _ from
    filterAuxM_and p xs []]
  cases xs.filterAuxM f [] with
  | error e => rfl
  | ok kept => simp [Except.map, bind, Except.bind, pure, Except.pure, List.filter_reverse]

/-- Items with nothing in their answers can be left out. -/
theorem map_flatten_mapM_filter {f : α → Except ε (List β)} {p : α → Bool} {xs : List α}
    (h : ∀ x ∈ xs, p x = false → f x = .ok []) :
    ((xs.filter p).mapM f).map List.flatten = (xs.mapM f).map List.flatten := by
  induction xs with
  | nil => rfl
  | cons x xs ih =>
    have hrest := ih fun y hy => h y (List.mem_cons_of_mem x hy)
    cases hp : p x with
    | true =>
      rw [List.filter_cons_of_pos hp, List.mapM_cons, List.mapM_cons]
      cases f x with
      | error e => rfl
      | ok ys =>
        have hcons : ∀ rest : Except ε (List (List β)),
            (rest >>= fun rest => pure (ys :: rest)).map List.flatten =
              (rest.map List.flatten).map (ys ++ ·) := by
          rintro (e | rest) <;> rfl
        exact (hcons _).trans ((congrArg _ hrest).trans (hcons _).symm)
    | false =>
      rw [List.filter_cons_of_neg (by simp [hp]), hrest, List.mapM_cons,
        h x List.mem_cons_self hp]
      cases xs.mapM f <;> rfl

/-- The contributions of different items have no repetitions exactly when none has one and no two
share anything. -/
theorem nodup_flatMap_iff {f : α → List β} {xs : List α} (h : xs.Nodup) :
    (xs.flatMap f).Nodup ↔
      (∀ x ∈ xs, (f x).Nodup) ∧ ∀ x ∈ xs, ∀ y ∈ xs, x ≠ y → List.Disjoint (f x) (f y) := by
  rw [List.nodup_flatMap]
  refine and_congr_right fun _ => ?_
  constructor
  · intro hpairwise x hx y hy hne
    have hsymm : Std.Symm (Function.onFun List.Disjoint f) := ⟨fun _ _ h => List.disjoint_symm h⟩
    exact hpairwise.forall hx hy hne
  · exact h.pairwise_of_forall_ne

/-- What numbered items contribute is in an order that the numbers begin and that goes on within
each item. -/
theorem pairwise_flatMap_zipIdx {xs : List α} {f : α × Nat → List β} {r : β → β → Prop}
    (hsame : ∀ i x, xs[i]? = some x → (f (x, i)).Pairwise r)
    (hlater : ∀ e e' : α × Nat, e.2 < e'.2 → ∀ a ∈ f e, ∀ b ∈ f e', r a b) :
    (xs.zipIdx.flatMap f).Pairwise r := by
  rw [List.pairwise_flatMap]
  constructor
  · exact fun e he => hsame e.2 e.1 (List.mem_zipIdx_iff_getElem?.mp he)
  · have hnumbers : (xs.zipIdx.map (·.2)).Pairwise (· < ·) := by
      rw [List.zipIdx_map_snd]
      exact List.pairwise_lt_range' 1
    exact (List.pairwise_map.mp hnumbers).imp fun {e e'} hlt => hlater e e' hlt

/-- Without repetitions, each item is there once. -/
theorem nodup_eraseDups [BEq α] [LawfulBEq α] (xs : List α) : xs.eraseDups.Nodup := by
  induction hlength : xs.length using Nat.strongRecOn generalizing xs with
  | ind n ih =>
    cases xs with
    | nil => exact List.nodup_nil
    | cons x xs =>
      rw [List.eraseDups_cons, List.nodup_cons]
      constructor
      · intro hmem
        have hne := (List.mem_filter.mp (List.mem_eraseDups.mp hmem)).2
        simp at hne
      · have hshort := List.length_filter_le (fun y => !y == x) xs
        rw [List.length_cons] at hlength
        exact ih _ (by omega) _ rfl

section Repetitions

variable [BEq α] [LawfulBEq α]

/-- Filtering and leaving out repeated items can be done in either order. -/
theorem filter_eraseDups (p : α → Bool) (xs : List α) :
    (xs.filter p).eraseDups = xs.eraseDups.filter p := by
  induction hlength : xs.length using Nat.strongRecOn generalizing xs with
  | ind n ih =>
    cases xs with
    | nil => rfl
    | cons x xs =>
      have hshort := List.length_filter_le (fun y => !y == x) xs
      rw [List.length_cons] at hlength
      have hrest := ih _ (by omega) (xs.filter fun y => !y == x) rfl
      rw [List.eraseDups_cons, List.filter_cons, List.filter_cons]
      split
      · rw [List.eraseDups_cons, ← hrest, List.filter_filter, List.filter_filter]
        simp only [Bool.and_comm]
      · rename_i hx
        rw [← hrest, List.filter_filter]
        congr 1
        refine List.filter_congr fun y _ => ?_
        by_cases hy : y = x
        · subst hy
          simp [hx]
        · simp [hy]

/-- Without repeated items there is nothing to leave out. -/
theorem eraseDups_of_nodup {xs : List α} (h : xs.Nodup) : xs.eraseDups = xs := by
  induction xs with
  | nil => rfl
  | cons x xs ih =>
    obtain ⟨hx, hxs⟩ := List.nodup_cons.mp h
    have hall : (xs.filter fun y => !y == x) = xs := by
      rw [List.filter_eq_self]
      intro y hy
      have hne : y ≠ x := fun heq => hx (heq ▸ hy)
      simp [hne]
    rw [List.eraseDups_cons, hall, ih hxs]

/-- Leaving out repetitions beforehand makes no difference. -/
theorem eraseDups_append_congr {xs ys zs : List α} (h : ys.eraseDups = zs.eraseDups) :
    (xs.eraseDups ++ ys).eraseDups = (xs ++ zs).eraseDups := by
  have hsame : ∀ x, List.elem x xs.eraseDups = List.elem x xs := by
    intro x
    rw [Bool.eq_iff_iff, List.elem_iff, List.elem_iff, List.mem_eraseDups]
  -- What is left of the second list is what the first one lacks, and that is asked of its members.
  rw [List.eraseDups_append, List.eraseDups_append, eraseDups_of_nodup (nodup_eraseDups xs)]
  unfold List.removeAll
  simp only [hsame, filter_eraseDups, h]

/-- Leaving out items that repeat in a part makes no difference to the whole. -/
theorem eraseDups_flatMap_eraseDups (f : β → List α) (xs : List β) :
    (xs.flatMap fun x => (f x).eraseDups).eraseDups = (xs.flatMap f).eraseDups := by
  induction xs with
  | nil => rfl
  | cons x xs ih =>
    rw [List.flatMap_cons, List.flatMap_cons]
    exact eraseDups_append_congr ih

/-- Repetitions of one item are the item. -/
theorem eraseDups_eq_singleton {xs : List α} {a : α} (hne : xs ≠ []) (h : ∀ x ∈ xs, x = a) :
    xs.eraseDups = [a] := by
  cases xs with
  | nil => exact absurd rfl hne
  | cons x xs =>
    obtain rfl := h x List.mem_cons_self
    have hnone : (xs.filter fun y => !y == x) = [] := by
      rw [List.filter_eq_nil_iff]
      intro y hy
      simp [h y (List.mem_cons_of_mem x hy)]
    rw [List.eraseDups_cons, hnone]
    rfl

/-- What is left without repetitions does not depend on the order. -/
theorem perm_eraseDups {xs ys : List α} (h : xs.Perm ys) : xs.eraseDups.Perm ys.eraseDups := by
  refine (List.perm_ext_iff_of_nodup (nodup_eraseDups xs) (nodup_eraseDups ys)).mpr fun x => ?_
  rw [List.mem_eraseDups, List.mem_eraseDups, h.mem_iff]

/-- One more item is kept unless it is there already. -/
theorem eraseDups_concat (xs : List α) (x : α) :
    (xs ++ [x]).eraseDups = if xs.contains x then xs.eraseDups else xs.eraseDups ++ [x] := by
  by_cases hx : x ∈ xs <;>
    simp [List.eraseDups_append, List.removeAll, List.eraseDups_cons, hx]

/-- Without its repeated items a list has what is left in order. -/
theorem eraseDups_sublist (xs : List α) : xs.eraseDups.Sublist xs := by
  induction xs using List.reverseRecOn with
  | nil => exact .slnil
  | append_singleton xs x ih =>
    rw [eraseDups_concat]
    split
    · exact ih.trans (List.sublist_append_left xs [x])
    · exact ih.append_right [x]

/-- No item is left out exactly where there are no repetitions. -/
theorem length_eraseDups_eq_iff {xs : List α} : xs.eraseDups.length = xs.length ↔ xs.Nodup := by
  constructor
  · intro h
    have hnodup := nodup_eraseDups xs
    rwa [(eraseDups_sublist xs).eq_of_length h] at hnodup
  · intro h
    rw [eraseDups_of_nodup h]

/-- A list with more items has as many different ones at least. -/
theorem length_eraseDups_le_of_subset {xs ys : List α} (h : xs ⊆ ys) :
    xs.eraseDups.length ≤ ys.eraseDups.length := by
  have hsubset : xs.eraseDups ⊆ ys.eraseDups := fun x hx =>
    List.mem_eraseDups.mpr (h (List.mem_eraseDups.mp hx))
  exact ((nodup_eraseDups xs).subperm hsubset).length_le

/-- Items are kept in the order of their first places. -/
theorem pairwise_idxOf_eraseDups (xs : List α) :
    xs.eraseDups.Pairwise fun x y => xs.idxOf x < xs.idxOf y := by
  induction xs using List.reverseRecOn with
  | nil => exact .nil
  | append_singleton xs x ih =>
    have hplace : ∀ y ∈ xs.eraseDups, (xs ++ [x]).idxOf y = xs.idxOf y := fun y hy =>
      List.idxOf_append_of_mem (List.mem_eraseDups.mp hy)
    have hkept : xs.eraseDups.Pairwise fun y z => (xs ++ [x]).idxOf y < (xs ++ [x]).idxOf z := by
      refine ih.imp_of_mem fun hy hz hlt => ?_
      rwa [hplace _ hy, hplace _ hz]
    rw [eraseDups_concat]
    split
    next => exact hkept
    next hnew =>
      refine List.pairwise_append.mpr ⟨hkept, List.pairwise_singleton _ _, fun y hy z hz => ?_⟩
      obtain rfl := List.mem_singleton.mp hz
      have hz : z ∉ xs := by simpa using hnew
      rw [hplace y hy, List.idxOf_append_of_notMem hz]
      have hlt := List.idxOf_lt_length_of_mem (List.mem_eraseDups.mp hy)
      omega

end Repetitions

section Keys

variable {κ : Type} [BEq κ] [LawfulBEq κ] {key : α → κ} {xs ys : List α}

/-- Where every key is there once, an item is found by its key. -/
theorem find?_key_eq_some_iff (h : (xs.map key).Nodup) {k : κ} {x : α} :
    xs.find? (fun x => key x == k) = some x ↔ x ∈ xs ∧ key x = k := by
  constructor
  · intro hfind
    exact ⟨List.mem_of_find?_eq_some hfind, by simpa using List.find?_some hfind⟩
  · rintro ⟨hx, hkey⟩
    cases hfind : xs.find? fun x => key x == k with
    | none => exact absurd (beq_iff_eq.mpr hkey) (List.find?_eq_none.mp hfind x hx)
    | some y =>
      have hy : key y = k := by simpa using List.find?_some hfind
      rw [List.inj_on_of_nodup_map h (List.mem_of_find?_eq_some hfind) hx (hy.trans hkey.symm)]

/-- Where each key is there once, an item is all there is of its key. -/
theorem filter_key_eq_singleton (h : (xs.map key).Nodup) {x : α} (hx : x ∈ xs) :
    (xs.filter fun y => key y == key x) = [x] := by
  induction xs with
  | nil => cases hx
  | cons y xs ih =>
    obtain ⟨hnew, hrest⟩ := List.nodup_cons.mp h
    rcases List.mem_cons.mp hx with rfl | hx
    · have hnone : (xs.filter fun y => key y == key x) = [] :=
        List.filter_eq_nil_iff.mpr fun y hy heq =>
          hnew (List.mem_map.mpr ⟨y, hy, beq_iff_eq.mp heq⟩)
      rw [List.filter_cons, if_pos (beq_self_eq_true _), hnone]
    · have hother : ¬(key y == key x) = true := fun heq =>
        hnew (List.mem_map.mpr ⟨x, hx, (beq_iff_eq.mp heq).symm⟩)
      rw [List.filter_cons, if_neg hother, ih hrest hx]

/-- What is found by a key does not depend on the order. -/
theorem find?_key_of_perm (hperm : xs.Perm ys) (h : (xs.map key).Nodup) (k : κ) :
    xs.find? (fun x => key x == k) = ys.find? fun x => key x == k := by
  have h' : (ys.map key).Nodup := (hperm.map key).nodup_iff.mp h
  ext x
  rw [find?_key_eq_some_iff h, find?_key_eq_some_iff h', hperm.mem_iff]

end Keys

section Places

variable {holds holds' : Nat → Prop} [DecidablePred holds] [DecidablePred holds'] {xs : List α}

/-- The items of a list at the places for which something holds, in order. -/
def itemsAt (holds : Nat → Prop) [DecidablePred holds] (xs : List α) : List α :=
  (xs.zipIdx.filter fun x => holds x.2).map (·.1)

/-- The items at some places are the first one, if its place is among them, and those after it. -/
theorem itemsAt_cons (x : α) (xs : List α) :
    itemsAt holds (x :: xs) =
      if holds 0 then x :: itemsAt (fun p => holds (p + 1)) xs
      else itemsAt (fun p => holds (p + 1)) xs := by
  have hrest : itemsAt (fun p => holds (p + 1)) xs =
      ((xs.zipIdx 1).filter fun x => holds x.2).map (·.1) := by
    rw [List.zipIdx_succ, List.filter_map, List.map_map]
    rfl
  rw [hrest, itemsAt, List.zipIdx_cons, List.filter_cons]
  by_cases h : holds 0 <;> simp [h]

/-- Only the places that a list has matter. -/
theorem itemsAt_congr (h : ∀ p < xs.length, holds p ↔ holds' p) :
    itemsAt holds xs = itemsAt holds' xs := by
  unfold itemsAt
  congr 1
  refine List.filter_congr fun x hx => ?_
  rw [decide_eq_decide]
  exact h x.2 (List.snd_lt_of_mem_zipIdx hx)

/-- At no places there are no items. -/
theorem itemsAt_eq_nil (h : ∀ p < xs.length, ¬holds p) : itemsAt holds xs = [] := by
  unfold itemsAt
  rw [List.map_eq_nil_iff, List.filter_eq_nil_iff]
  intro x hx
  rw [decide_eq_true_iff]
  exact h x.2 (List.snd_lt_of_mem_zipIdx hx)

/-- The items at some places of two lists are those of the first and of the second. -/
theorem itemsAt_append (xs ys : List α) :
    itemsAt holds (xs ++ ys) =
      itemsAt holds xs ++ itemsAt (fun p => holds (xs.length + p)) ys := by
  have hshift : itemsAt (fun p => holds (xs.length + p)) ys =
      ((ys.zipIdx xs.length).filter fun x => holds x.2).map (·.1) := by
    rw [List.zipIdx_eq_map_add, List.filter_map, List.map_map]
    unfold itemsAt
    simp only [Function.comp_def, Nat.add_comm]
  rw [hshift, itemsAt, List.zipIdx_append, List.filter_append, List.map_append, Nat.zero_add]
  rfl

/-- The places from one up to another are a part of the list. -/
theorem itemsAt_between (first stop : Nat) (xs : List α) :
    itemsAt (fun p => first ≤ p ∧ p < stop) xs = (xs.take stop).drop first := by
  induction xs generalizing first stop with
  | nil => rw [List.take_nil, List.drop_nil]; rfl
  | cons x xs ih =>
    cases stop with
    | zero =>
      rw [List.take_zero, List.drop_nil]
      exact itemsAt_eq_nil fun p _ h => Nat.not_lt_zero p h.2
    | succ stop =>
      rw [itemsAt_cons, List.take_succ_cons]
      cases first with
      | zero =>
        rw [if_pos ⟨Nat.le_refl 0, Nat.succ_pos stop⟩, List.drop_zero]
        have hrest := ih 0 stop
        rw [List.drop_zero] at hrest
        rw [← hrest]
        exact congrArg (x :: ·) (itemsAt_congr fun p _ => by omega)
      | succ first =>
        rw [if_neg fun h => Nat.not_succ_le_zero first h.1, List.drop_succ_cons, ← ih first stop]
        exact itemsAt_congr fun p _ => by omega
end Places

end DesignTokens
