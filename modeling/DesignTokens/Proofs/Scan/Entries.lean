import DesignTokens.Proofs.Scan.Complete

/-!
# Entries for repositories

The entries of a configuration are objects with anything in them. Whatever they hold, those that
declare a repository are taken in their order and the others are skipped, each with a warning. What
is taken need not be usable: the fields of a repository stand as they do in its entry, and one that
is no text is found out when the location is looked at or a path is made of it. That ends the whole
scan, where a directory that is not there or a failed command only gives a failed result.
-/

namespace DesignTokens

open Terminal

/-- The world after warnings. -/
def World.warnedAll (w : World) (lines : List String) : World :=
  { w with warnings := w.warnings ++ lines }

namespace Repository

/-- The repositories that entries declare, without the entries that declare none. -/
def accepted (entries : List Members) : List Repository :=
  entries.filterMap fun m => (ofMembers m).toOption

/-- The warning about an entry that declares no repository. -/
def refusal? (m : Members) : Option String :=
  match ofMembers m with
  | .ok _ => none
  | .error e => some (paint red ("✖ Skipping repository entry: " ++ e.message))

/-- Whatever is wrong with an entry makes it unusable without stopping the run. -/
theorem isUnusable_of_ofMembers {m : Members} {e : Failure} (h : ofMembers m = .error e) :
    isUnusable e = true := by
  unfold ofMembers at h
  dsimp only at h
  split at h
  · cases h
    rfl
  · split at h
    · cases h
    · generalize (m.getD "location" .null).orElse (m.getD "url" .null) = location at h
      cases location <;> cases h <;> rfl

/-- An entry declares a repository, or is skipped with a warning. -/
theorem outcome_ofEntry (m : Members) (w : World) :
    outcome ( ofEntry? (.object m)) w =
      (.ok (ofMembers m).toOption, w.warnedAll (refusal? m).toList) := by
  have hread : outcome (Run.ofExcept (ofValue (.object m))) w = (ofMembers m, w) :=
    outcome_ofExcept _ w
  unfold ofEntry? refusal?
  cases hm : ofMembers m with
  | ok r =>
    rw [hm] at hread
    rw [outcome_recover_of_ok (outcome_bind_of_ok hread _)]
    simp [World.warnedAll, Except.toOption]
  | error e =>
    rw [hm] at hread
    rw [outcome_recover_of_error (outcome_bind_of_error hread _),
      if_pos (isUnusable_of_ofMembers hm), outcome_bind_of_ok (outcome_warn _ w)]
    rfl

/-- Entries declare repositories, and those that declare none are skipped with warnings. -/
theorem outcome_ofEntries (entries : List Members) (w : World) :
    outcome (ofEntries (entries.map .object)) w =
      (.ok (accepted entries), w.warnedAll (entries.filterMap refusal?)) := by
  have hall : outcome ((entries.map .object).mapM ofEntry?) w =
      (.ok (entries.map fun m => (ofMembers m).toOption),
        w.warnedAll (entries.filterMap refusal?)) := by
    induction entries generalizing w with
    | nil => simp [World.warnedAll]
    | cons m entries ih =>
      rw [List.map_cons, List.mapM_cons, outcome_bind_of_ok (outcome_ofEntry m w),
        outcome_bind_of_ok (ih _)]
      cases hm : refusal? m <;> simp [World.warnedAll, hm]
  unfold ofEntries
  rw [outcome_bind_of_ok hall]
  simp [accepted, List.filterMap_map]

end Repository

namespace Scanner

open Repository

variable {s : Scanner} {w : World} {entries : List Members}

attribute [local instance] Nesting.Room.ample

end Scanner

end DesignTokens
