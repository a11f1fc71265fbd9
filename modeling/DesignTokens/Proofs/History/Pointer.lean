import DesignTokens.Proofs.History.Store
import DesignTokens.Proofs.History.Turn

/-!
# The last processed commit over a run

Over a store in memory the last processed commit has two copies, one in the store and one in the
detector. Whatever the version control system answers, and wherever a turn stops, the two stay
equal, and they move in one case only: a report of new commits that is not empty moves them to the
commit that the same turn was told to be checked out.
-/

namespace DesignTokens

open Detector

/-- What a turn does to the two copies of the last processed commit. -/
structure Turn.MovesPointer (t : Turn) : Prop where
  /-- The two copies are equal afterwards. -/
  agree : t.after.store = .memory t.after.pointer
  /-- A report of new commits that is not empty moves both to the commit that is checked out. -/
  moved : t.request = .sinceLast → t.found ≠ [] →
    ∃ text, t.world.git.answer (t.world.calls ++ [.opened t.before.path]) .head = .ok text ∧
      t.after.pointer = some (Text.trimString text)
  /-- Every other turn, empty or failed, leaves the detector as it is. -/
  kept : t.request ≠ .sinceLast ∨ t.found = [] → t.after = t.before
  /-- If the last processed commit is the one checked out, nothing more is asked. -/
  level : ∀ opened text, t.request = .sinceLast →
    pathExists t.world t.before.path = .ok true →
    t.world.git.answer t.world.calls (.opened t.before.path) = .ok opened →
    t.world.git.answer (t.world.calls ++ [.opened t.before.path]) .head = .ok text →
    t.before.pointer = some (Text.trimString text) →
      t.answer = .ok [] ∧ t.left.calls = t.world.calls ++ [.opened t.before.path, .head]

variable [Nesting.Room]

namespace Detector

variable {d : Detector} {w w₁ : World}

/-- If the last processed commit is the one checked out, the report is empty and only the
repository and the commit have been asked for. -/
theorem outcome_detectSinceLast_of_eq {opened text : String}
    (hpath : pathExists w d.path = .ok true)
    (hopen : w.git.answer w.calls (.opened d.path) = .ok opened)
    (hhead : w.git.answer (w.calls ++ [.opened d.path]) .head = .ok text)
    (hpointer : d.pointer = some (Text.trimString text)) :
    ∃ w₁, outcome detectSinceLast (d, w) = (.ok [], d, w₁) ∧
      w₁.calls = w.calls ++ [.opened d.path, .head] := by
  have hscan := outcome_scanSinceLast_of_ok hpath hopen hhead
  by_cases hempty : Text.trimString text = ""
  · rw [PointerStore.hashIn_eq, if_pos hempty, outcome_reportUpTo_none] at hscan
    refine ⟨_, outcome_recover_of_ok hscan _ _, ?_⟩
    simp [World.warned, World.issued]
  · obtain ⟨w₁, hfound, hcalls, -⟩ := exists_commitsUpTo_of_eq hempty hpointer
    rw [PointerStore.hashIn_of_trimString rfl hempty, outcome_reportUpTo_of_nil hfound] at hscan
    refine ⟨w₁, outcome_recover_of_ok hscan _ _, ?_⟩
    rw [hcalls]
    simp [World.issued]

/-- One turn moves the last processed commit in the one case only. -/
theorem movesPointer_turn (h : d.store = .memory d.pointer) (request : Request) (w : World) :
    (d.turn request w).MovesPointer := by
  cases request with
  | recent span =>
    have hkept : (d.turn (.recent span) w).after = d := keeps_detectRecent span d w
    refine ⟨?_, nofun, fun _ => hkept, nofun⟩
    rw [hkept]
    exact h
  | sinceLast =>
    have hlevel : ∀ opened text, Request.sinceLast = .sinceLast →
        pathExists w d.path = .ok true → w.git.answer w.calls (.opened d.path) = .ok opened →
        w.git.answer (w.calls ++ [.opened d.path]) .head = .ok text →
        d.pointer = some (Text.trimString text) →
          (d.turn .sinceLast w).answer = .ok [] ∧
            (d.turn .sinceLast w).left.calls = w.calls ++ [.opened d.path, .head] := by
      intro opened text _ hpath hopen hhead hpointer
      obtain ⟨w₁, hreport, hcalls⟩ := outcome_detectSinceLast_of_eq hpath hopen hhead hpointer
      have hturn : d.turn .sinceLast w = ⟨.sinceLast, d, w, .ok [], d, w₁⟩ := turn_eq hreport
      rw [hturn]
      exact ⟨rfl, hcalls⟩
    have hcases := SinceLast.detect d w
    rcases hreport : outcome detectSinceLast (d, w) with ⟨answer, after, left⟩
    have hturn : d.turn .sinceLast w = ⟨.sinceLast, d, w, answer, after, left⟩ := turn_eq hreport
    rw [hreport] at hcases
    rw [hturn] at hlevel ⊢
    cases hcases with
    | idle hnothing =>
      have hnil : Turn.found ⟨.sinceLast, after, w, answer, after, left⟩ = [] := by
        cases answer with
        | error e => rfl
        | ok found => exact hnothing found rfl
      exact ⟨h, fun _ hne => absurd hnil hne, fun _ => rfl, hlevel⟩
    | moved hhead hhash hfound hne hsave =>
      rw [h] at hsave
      cases hsave
      obtain ⟨rfl, -⟩ := PointerStore.trimString_of_hashIn hhash
      exact ⟨rfl, fun _ _ => ⟨_, hhead, rfl⟩,
        fun hkept => hkept.elim (absurd rfl) fun hnil => absurd hnil hne, hlevel⟩

/-- Every turn of a run moves the last processed commit in the one case only. -/
theorem movesPointer_turns (h : d.store = .memory d.pointer) (requests : List (Request × World)) :
    ∀ t ∈ d.turns requests, t.MovesPointer := by
  induction requests generalizing d with
  | nil => simp [turns]
  | cons first more ih =>
    have hfirst := movesPointer_turn h first.1 first.2
    intro t ht
    rcases List.mem_cons.mp ht with rfl | hmore
    · exact hfirst
    · exact ih hfirst.agree t hmore

/-- A detector that starts over a store in memory takes what the store holds, and from then on,
whatever it is asked for and whatever it is answered, the two copies move together and only to the
commit that is checked out when new commits are reported. -/
theorem exists_start_movesPointer (path : Value) (held : Option String)
    (lookbackHours lookahead : Int) (w : World) (requests : List (Request × World)) :
    ∃ d w₁, outcome (start path (.memory held) lookbackHours lookahead) w = (.ok d, w₁) ∧
      d.pointer = held ∧ d.store = .memory held ∧ ∀ t ∈ d.turns requests, t.MovesPointer := by
  have hload : outcome (PointerStore.load (.memory held)) w = (.ok held, w) := rfl
  unfold start
  rw [outcome_bind_of_ok hload]
  cases given held with
  | none =>
    rw [outcome_bind_of_ok (outcome_say _ w)]
    exact ⟨_, _, rfl, rfl, rfl, movesPointer_turns rfl requests⟩
  | some hash =>
    rw [outcome_bind_of_ok (outcome_say _ w)]
    exact ⟨_, _, rfl, rfl, rfl, movesPointer_turns rfl requests⟩

end Detector

end DesignTokens
