import DesignTokens.Proofs.Diff.Origin

/-!
# The account of a diff

Every removed and every added definition of a diff is told by exactly one change, and no change
tells anything else. A removed definition takes the first added definition of its name in reach
that no earlier one has taken; what is taken is not told again. Changes come in the order of their
own lines.
-/

namespace DesignTokens

namespace TokenChange

/-- The definition that a change removes or replaces. -/
def oldToken? (c : TokenChange) : Option TokenLine :=
  c.oldValue.map fun value => ⟨c.tokenName, value⟩

/-- The definition that a change adds or puts in place of another. -/
def newToken? (c : TokenChange) : Option TokenLine :=
  c.newValue.map fun value => ⟨c.tokenName, value⟩

/-- The lines of a diff that hold a removed definition, in their order. -/
def removedLines (lines : List (List Char)) : List Nat :=
  (List.range lines.length).filter fun i => (removedAt lines i).isSome

/-- The lines of a diff that hold an added definition, in their order. -/
def addedLines (lines : List (List Char)) : List Nat :=
  (List.range lines.length).filter fun j => (addedAt lines j).isSome

/-- The changes of a diff with the lines they come from, when pairs reach over `reach` lines. -/
structure Account (lines : List (List Char)) (reach : Nat) (origins : List Origin)
    (changes : List TokenChange) : Prop where
  /-- The changes tell, one by one, what the lines they come from define. -/
  tells : List.Forall₂ (Origin.Tells lines) origins changes
  /-- Each removed definition belongs to one change, in the order of the lines. -/
  removed : origins.filterMap Origin.removed? = removedLines lines
  /-- Each added definition belongs to one change. -/
  added : (origins.filterMap Origin.added?).Perm (addedLines lines)
  /-- The changes come in the order of their own lines. -/
  ordered : origins.Pairwise fun a b => a.own < b.own
  /-- The added line of a pair comes after the removed one, in reach. -/
  near : ∀ i j, .modification i j ∈ origins → i < j ∧ j ≤ i + reach
  /-- A definition of the same name in reach is taken, unless one before it is. -/
  first : ∀ i j old new, removedAt lines i = some old → addedAt lines j = some new →
    new.name = old.name → i < j → j ≤ i + reach →
      ∃ i' j', .modification i' j' ∈ origins ∧ (i' = i ∧ j' ≤ j ∨ i' < i ∧ j' = j)

private theorem filterMap_range {α β : Type} (xs : List α) (f : α → Option β) :
    (List.range xs.length).filterMap (fun i => (xs[i]?).bind f) = xs.filterMap f := by
  induction xs with
  | nil => rfl
  | cons x xs ih =>
    rw [List.length_cons, List.range_succ_eq_map, List.filterMap_cons, List.filterMap_map,
      List.filterMap_cons]
    have hrest : List.filterMap ((fun i => ((x :: xs)[i]?).bind f) ∘ Nat.succ)
        (List.range xs.length) = xs.filterMap f := ih
    rw [hrest]
    rfl

private theorem filterMap_definitions {β : Type} (xs : List (List Char))
    (f : List Char → Option β) :
    ((List.range xs.length).filter fun i => ((xs[i]?).bind f).isSome).filterMap
      (fun i => (xs[i]?).bind f) = xs.filterMap f := by
  rw [← filterMap_range xs f, List.filterMap_filter]
  refine List.filterMap_congr fun i _ => ?_
  cases (xs[i]?).bind f <;> rfl

namespace Account

variable {lines : List (List Char)} {reach : Nat} {origins : List Origin}
  {changes : List TokenChange}

private theorem olds_of_tells (h : List.Forall₂ (Origin.Tells lines) origins changes) :
    changes.filterMap oldToken? =
      (origins.filterMap Origin.removed?).filterMap (removedAt lines) := by
  induction h with
  | nil => rfl
  | cons htells _ ih =>
    cases htells with
    | deletion hold =>
      simp only [List.filterMap_cons, oldToken?, Origin.removed?, Option.map_some, hold, ih]
    | modification hold _ _ =>
      simp only [List.filterMap_cons, oldToken?, Origin.removed?, Option.map_some, hold, ih]
    | addition _ => simpa only [List.filterMap_cons, oldToken?, Origin.removed?, Option.map_none]

private theorem news_of_tells (h : List.Forall₂ (Origin.Tells lines) origins changes) :
    changes.filterMap newToken? = (origins.filterMap Origin.added?).filterMap (addedAt lines) := by
  induction h with
  | nil => rfl
  | cons htells _ ih =>
    cases htells with
    | deletion _ => simpa only [List.filterMap_cons, newToken?, Origin.added?, Option.map_none]
    | modification _ hnew hname =>
      simp only [List.filterMap_cons, newToken?, Origin.added?, Option.map_some, hnew, ih, ← hname]
    | addition hnew =>
      simp only [List.filterMap_cons, newToken?, Origin.added?, Option.map_some, hnew, ih]

/-- The old sides of the changes are the removed definitions, in the order of the lines. -/
theorem olds (h : Account lines reach origins changes) :
    changes.filterMap oldToken? = lines.filterMap DiffLine.removedToken? := by
  rw [olds_of_tells h.tells, h.removed]
  exact filterMap_definitions lines DiffLine.removedToken?

/-- The new sides of the changes are the added definitions, each of them once. -/
theorem news (h : Account lines reach origins changes) :
    (changes.filterMap newToken?).Perm (lines.filterMap DiffLine.addedToken?) := by
  rw [news_of_tells h.tells, ← filterMap_definitions lines DiffLine.addedToken?]
  exact h.added.filterMap _

/-- No change is empty. -/
theorem isSome_or_isSome (h : Account lines reach origins changes) :
    ∀ c ∈ changes, c.oldValue.isSome = true ∨ c.newValue.isSome = true := by
  have htells := h.tells
  clear h
  induction htells with
  | nil => simp
  | cons htells _ ih =>
    rintro c (_ | ⟨_, hc⟩)
    · cases htells with
      | deletion _ => exact .inl rfl
      | modification _ _ _ => exact .inl rfl
      | addition _ => exact .inr rfl
    · exact ih c hc

end Account

/-- Lines that have been read have an account. -/
theorem account_ofLines {raw : List (List Char)} {lines : List DiffLine}
    (h : List.Forall₂ DiffLine.Reads raw lines) (reach : Nat) :
    Account raw reach (Origin.ofLines reach 0 lines []) (ofLines reach 0 lines []) := by
  have hfrom : ReadsFrom raw 0 lines := h
  have hlength : raw.length = lines.length := h.length_eq
  refine ⟨tells_ofLines hfrom reach 0 [], ?_, ?_, Origin.pairwise_own reach 0 lines [],
    fun i j => Origin.near reach 0 lines [], ?_⟩
  · rw [Origin.filterMap_removed? hfrom, removedLines, hlength, List.range_eq_range']
  · refine (List.perm_ext_iff_of_nodup (Origin.nodup_added? hfrom reach [])
      (List.nodup_range.filter _)).mpr fun j => ?_
    have hbound : (addedAt raw j).isSome = true → j < raw.length := fun hsome => by
      by_contra hge
      rw [addedAt, List.getElem?_eq_none (Nat.not_lt.mp hge)] at hsome
      cases hsome
    rw [Origin.mem_added? hfrom, List.mem_filter, List.mem_range]
    exact ⟨fun hj => ⟨hbound hj.2.1, hj.2.1⟩, fun hj => ⟨Nat.zero_le j, hj.2, rfl⟩⟩
  · intro i j old new hold hnew hname hij hj
    rcases Origin.first hfrom reach [] (Nat.zero_le i) hold hnew hname hij hj with hmark | hfirst
    · cases hmark
    · exact hfirst

/-- A diff whose numbers fit is read, and its changes have an account. -/
theorem exists_origins {diff : String} (lookahead : Int)
    (hfits : ∀ line ∈ Text.splitOn '\n' diff.toList, DiffLine.NumberFits line) :
    ∃ changes origins, ofDiff diff lookahead = .ok changes ∧
      Account (Text.splitOn '\n' diff.toList) lookahead.toNat origins changes := by
  obtain ⟨lines, hread, hreads⟩ := DiffLine.exists_mapM_read hfits
  refine ⟨_, _, ?_, account_ofLines hreads lookahead.toNat⟩
  rw [ofDiff_eq, hread]
  rfl

/-- The changes in a diff account for its definitions, for every lookahead: the ones with an old
value tell the removed definitions in their order, the ones with a new value tell the added
definitions once each, and the pairs are the first ones in reach. -/
theorem exists_account (diff : String) (lookahead : Int)
    (hfits : ∀ line ∈ Text.splitOn '\n' diff.toList, DiffLine.NumberFits line) :
    ∃ changes origins, ofDiff diff lookahead = .ok changes ∧
      Account (Text.splitOn '\n' diff.toList) lookahead.toNat origins changes ∧
      changes.filterMap oldToken? =
        (Text.splitOn '\n' diff.toList).filterMap DiffLine.removedToken? ∧
      (changes.filterMap newToken?).Perm
        ((Text.splitOn '\n' diff.toList).filterMap DiffLine.addedToken?) ∧
      ∀ c ∈ changes, c.oldValue.isSome = true ∨ c.newValue.isSome = true := by
  obtain ⟨changes, origins, hread, haccount⟩ := exists_origins lookahead hfits
  exact ⟨changes, origins, hread, haccount, haccount.olds, haccount.news,
    haccount.isSome_or_isSome⟩

/-- A diff in which one name is removed twice and added three times around a second header. -/
def repeatedNames : String :=
  "@@ -1,2 +1,2 @@\n-$a: 1;\n-$a: 2;\n+$a: 3;\n@@ -9 +9 @@\n+$a: 4;\n+$a: 5;"

/-- The windows of both removed lines hold the first added line, which the first of them takes; the
second takes the one after the header, and the third added line is an addition. -/
theorem exists_account_repeatedNames :
    (∀ line ∈ Text.splitOn '\n' repeatedNames.toList, DiffLine.NumberFits line) ∧
      ∃ changes origins, ofDiff repeatedNames 3 = .ok changes ∧
        Account (Text.splitOn '\n' repeatedNames.toList) 3 origins changes ∧
        changes.map (fun c => (c.oldValue, c.newValue)) =
          [(some "1", some "3"), (some "2", some "4"), (none, some "5")] := by
  obtain ⟨changes, origins, hread, haccount, -⟩ := exists_account repeatedNames 3 (by decide)
  refine ⟨by decide, changes, origins, hread, haccount, ?_⟩
  have heval : (ofDiff repeatedNames 3).toOption.map (List.map fun c => (c.oldValue, c.newValue)) =
      some [(some "1", some "3"), (some "2", some "4"), (none, some "5")] := by decide
  rw [hread] at heval
  exact Option.some.inj heval

end TokenChange

end DesignTokens
