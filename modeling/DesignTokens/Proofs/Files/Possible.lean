import DesignTokens.Proofs.Files.PathText
import DesignTokens.Proofs.Run

/-!
# Paths that are possible

No path can have the character that ends paths, and a run that is given one with it stops. What is
made of possible paths is possible too.
-/

namespace DesignTokens

namespace PathText

/-- A path without the character that no path can have. -/
def IsPossible (path : String) : Prop := ∀ c ∈ path.toList, c.toNat ≠ 0

instance (path : String) : Decidable (IsPossible path) := List.decidableBAll _ path.toList

variable {path other directory : String} {names done : List String}

/-- A path is possible if no character of it is null. -/
theorem any_eq_false_iff : path.toList.any (·.toNat == 0) = false ↔ IsPossible path := by
  simp [IsPossible, List.any_eq_false]

/-- A text made of characters of a possible path is possible. -/
theorem isPossible_ofList {s : List Char} (h : ∀ c ∈ s, c ∈ path.toList) (hpath : IsPossible path) :
    IsPossible (String.ofList s) := by
  intro c hc
  rw [String.toList_ofList] at hc
  exact hpath c (h c hc)

/-- Joined texts are possible if both are. -/
theorem isPossible_append_string (h : IsPossible path) (hother : IsPossible other) :
    IsPossible (path ++ other) := by
  intro c hc
  rw [String.toList_append] at hc
  rcases List.mem_append.mp hc with hc | hc
  · exact h c hc
  · exact hother c hc

/-- What is above a possible path is possible. -/
theorem isPossible_parent (h : IsPossible path) : IsPossible (parent path) := by
  have hchars : ∀ c ∈ path.toList.reverse.dropWhile (· ≠ '/'), c ∈ path.toList :=
    fun c hc => List.mem_reverse.mp ((List.dropWhile_suffix _).mem hc)
  unfold parent
  dsimp only
  split
  · exact isPossible_ofList (fun c hc => hchars c (List.mem_reverse.mp hc)) h
  · rename_i kept hkept
    refine isPossible_ofList (fun c hc => hchars c ?_) h
    rw [List.mem_reverse] at hc
    exact (List.dropWhile_suffix _).mem hc

/-- A possible path is so without the slashes at its end. -/
theorem isPossible_dropTrailingSlashes (h : IsPossible path) :
    IsPossible (dropTrailingSlashes path) := by
  refine isPossible_ofList (fun c hc => ?_) h
  rw [List.mem_reverse] at hc
  exact List.mem_reverse.mp ((List.dropWhile_suffix _).mem hc)

/-- The segments of a possible path are possible. -/
theorem isPossible_of_mem_segments (h : IsPossible path) : ∀ s ∈ segments path, IsPossible s := by
  intro s hs
  obtain ⟨field, hfield, rfl⟩ := List.mem_map.mp hs
  exact isPossible_ofList (fun c hc => Text.mem_of_mem_splitOn hfield hc) h

/-- Possible names make a possible path. -/
theorem isPossible_join (h : ∀ s ∈ names, IsPossible s) : IsPossible (join names) := by
  intro c hc
  rw [toList_join] at hc
  rcases Text.mem_joinWith hc with hslash | ⟨part, hpart, hc⟩
  · obtain rfl := List.mem_singleton.mp hslash
    decide
  · obtain ⟨name, hname, rfl⟩ := List.mem_map.mp hpart
    exact h name hname c hc

/-- The root of a path is made of slashes. -/
theorem isPossible_root (path : String) : IsPossible (root path) := by
  unfold root
  split <;> decide

end PathText

namespace Run

variable {path : String} {w u : World}

/-- A possible path is let through. -/
theorem requirePath_eq_pure (h : PathText.IsPossible path) : requirePath path = pure () := by
  unfold requirePath
  rw [PathText.any_eq_false_iff.mpr h]
  rfl

/-- A possible path is not refused. -/
theorem outcome_requirePath (h : PathText.IsPossible path) (w : World) :
    outcome (requirePath path) w = (.ok (), w) := by
  rw [requirePath_eq_pure h]
  rfl

/-- Only a possible path goes through. -/
theorem isPossible_of_requirePath (h : outcome (requirePath path) w = (.ok (), u)) :
    PathText.IsPossible path ∧ u = w := by
  unfold requirePath at h
  split at h
  · cases h
  · rename_i hpossible
    exact ⟨PathText.any_eq_false_iff.mp (Bool.eq_false_iff.mpr hpossible),
      (congrArg Prod.snd h).symm⟩

end Run

/-- The paths that a world gives are possible. -/
structure World.IsClean (w : World) : Prop where
  workingDirectory : PathText.IsPossible w.workingDirectory
  home : PathText.IsPossible w.home
  homes : ∀ user ∈ w.homes, PathText.IsPossible user.2

/-- A home directory in place of a tilde leaves a path possible in a clean world. -/
theorem World.IsClean.expandHome {w : World} (hw : w.IsClean) {path : String}
    (h : PathText.IsPossible path) : PathText.IsPossible (w.expandHome path) := by
  unfold World.expandHome
  split
  · rename_i rest hrest
    dsimp only
    split
    · rename_i home hhome
      have hpossible : PathText.IsPossible home := by
        unfold homeOf? at hhome
        split at hhome
        · exact Option.some.inj hhome ▸ hw.home
        · obtain ⟨before, after, hhomes, -⟩ := List.lookup_eq_some_iff.mp hhome
          exact hw.homes (_, home) (hhomes ▸ List.mem_append_right before List.mem_cons_self)
      have htail : PathText.IsPossible (String.ofList (rest.drop
          (rest.takeWhile (· ≠ '/')).length)) := by
        refine PathText.isPossible_ofList (fun c hc => ?_) h
        rw [hrest]
        exact List.mem_cons_of_mem _ (List.mem_of_mem_drop hc)
      split
      · decide
      · exact PathText.isPossible_append_string
          (PathText.isPossible_dropTrailingSlashes hpossible) htail
    · exact h
  · exact h

end DesignTokens
