import DesignTokens.Proofs.History.Log
import DesignTokens.Proofs.History.Store
import DesignTokens.Proofs.History.Turn
import Mathlib.Data.List.FinRange
import Mathlib.Order.Fin.Basic

/-!
# Turns on a chain of commits

On a history without branches the last processed commit is a position. A report of new commits tells
those between that position and the one checked out, and moves it there, unless the one checked out
lies before it; every other turn leaves the position where it is.
-/

namespace DesignTokens

/-- A history without branches: distinct commits, from the oldest on. -/
structure Chain where
  size : Nat
  hash : Fin size → String
  distinct : Function.Injective hash
  isHash : ∀ i, IsLogField (hash i)

namespace Chain

variable {c : Chain}

/-- The commits after one position up to another. -/
def between (c : Chain) (i j : Fin c.size) : List (Fin c.size) :=
  (List.finRange c.size).filter fun k => i < k ∧ k ≤ j

theorem mem_between {i j k : Fin c.size} : k ∈ c.between i j ↔ i < k ∧ k ≤ j := by
  simp [between]

theorem nodup_between (i j : Fin c.size) : (c.between i j).Nodup :=
  (List.nodup_finRange c.size).filter _

/-- There is nothing after a position up to one that is not beyond it. -/
theorem between_eq_nil_iff {i j : Fin c.size} : c.between i j = [] ↔ j ≤ i := by
  constructor
  · intro hnil
    by_contra hlt
    have hmem : j ∈ c.between i j := mem_between.mpr ⟨not_le.mp hlt, le_rfl⟩
    rw [hnil] at hmem
    cases hmem
  · intro hle
    refine List.eq_nil_iff_forall_not_mem.mpr fun k hk => ?_
    obtain ⟨hik, hkj⟩ := mem_between.mp hk
    exact absurd (hik.trans_le hkj) (not_lt.mpr hle)

@[simp] theorem between_self (i : Fin c.size) : c.between i i = [] :=
  between_eq_nil_iff.mpr le_rfl

/-- The commits up to a position and those after it are all. -/
theorem between_append_perm {i j k : Fin c.size} (hij : i ≤ j) (hjk : j ≤ k) :
    (c.between i j ++ c.between j k).Perm (c.between i k) := by
  refine (List.perm_ext_iff_of_nodup ?_ (nodup_between i k)).mpr fun m => ?_
  · refine (nodup_between i j).append (nodup_between j k) fun m hfirst hsecond => ?_
    exact absurd (mem_between.mp hfirst).2 (not_le.mpr (mem_between.mp hsecond).1)
  · rw [List.mem_append, mem_between, mem_between, mem_between]
    constructor
    · rintro (⟨him, hmj⟩ | ⟨hjm, hmk⟩)
      · exact ⟨him, hmj.trans hjk⟩
      · exact ⟨hij.trans_lt hjm, hmk⟩
    · rintro ⟨him, hmk⟩
      exact (le_or_gt m j).imp (fun hmj => ⟨him, hmj⟩) fun hjm => ⟨hjm, hmk⟩

end Chain

/-- The version control system tells the commits of a chain, with one of them checked out. -/
structure GitService.Follows (g : GitService) (c : Chain) (head : Fin c.size) : Prop
    extends g.TellsChanges where
  opened : ∀ history path, ∃ text, g.answer history (.opened path) = .ok text
  head : ∀ history, ∃ text, g.answer history .head = .ok text ∧ Text.trimString text = c.hash head
  range : ∀ history i j, ∃ entries,
    g.answer history (.log (some (c.hash i ++ ".." ++ c.hash j)) none) =
      .ok (LogEntry.logText entries) ∧
    (entries.map LogEntry.hash).Perm ((c.between i j).map c.hash)
  span : ∀ history since, ∃ text, g.answer history (.log none (some since)) = .ok text

namespace Chain

/-- A commit of a chain with nothing but its hash. -/
def entry (c : Chain) (i : Fin c.size) : LogEntry :=
  ⟨c.hash i, [], [], [], c.isHash i, by simp⟩

/-- Whether a range is the one between two commits. -/
def isRange (c : Chain) (range : String) (p : Fin c.size × Fin c.size) : Bool :=
  c.hash p.1 ++ ".." ++ c.hash p.2 == range

/-- A version control system that tells a chain, the latest commit first. -/
def service (c : Chain) (head : Fin c.size) : GitService where
  answer _ call :=
    match call with
    | .head => .ok (c.hash head)
    | .log (some range) none =>
      match ((List.finRange c.size).product (List.finRange c.size)).find? (c.isRange range) with
      | some (i, j) => .ok (LogEntry.logText ((c.between i j).reverse.map c.entry))
      | none => .ok ""
    | _ => .ok ""
  origin _ := .ok ()
  cloned _ _ := .ok []

/-- If the ranges of a chain are told apart, the version control system follows it. -/
theorem follows_service {c : Chain}
    (hapart : ∀ i j k l, c.hash i ++ ".." ++ c.hash j = c.hash k ++ ".." ++ c.hash l →
      i = k ∧ j = l) (head : Fin c.size) : (c.service head).Follows c head where
  filesOf _ _ := ⟨"", rfl⟩
  diffOf _ _ _ := ⟨"", rfl, by decide⟩
  opened _ _ := ⟨"", rfl⟩
  head _ := ⟨_, rfl, (c.isHash head).trimmed⟩
  span _ _ := ⟨"", rfl⟩
  range history i j := by
    have hranges : (((List.finRange c.size).product (List.finRange c.size)).map fun p =>
        c.hash p.1 ++ ".." ++ c.hash p.2).Nodup :=
      ((List.nodup_finRange c.size).product (List.nodup_finRange c.size)).map fun _ _ heq =>
        Prod.ext_iff.mpr (hapart _ _ _ _ heq)
    have hfind : ((List.finRange c.size).product (List.finRange c.size)).find?
        (c.isRange (c.hash i ++ ".." ++ c.hash j)) = some (i, j) :=
      (find?_key_eq_some_iff hranges).mpr ⟨by simp, rfl⟩
    refine ⟨(c.between i j).reverse.map c.entry, ?_, ?_⟩
    · simp only [service, hfind]
    · rw [List.map_map]
      exact (List.reverse_perm _).map c.hash

end Chain

namespace Detector

open Chain

variable {c : Chain} {d : Detector} {w w₁ : World} {head i : Fin c.size}

/-- What is new up to the commit that is checked out are the commits of the chain between. -/
theorem yields_commitsUpTo (hgit : w.git.Follows c head) (hpointer : d.pointer = some (c.hash i)) :
    Yields w (d.commitsUpTo (c.hash head)) fun found =>
      (found.map Commit.hash).Perm ((c.between i head).map c.hash) := by
  by_cases hsame : i = head
  · subst hsame
    intro w₁ hw₁
    obtain ⟨w₂, hnothing, -, hw₂⟩ := exists_commitsUpTo_of_eq (c.isHash i).ne_empty hpointer
    exact ⟨[], w₂, hnothing, hw₂.trans hw₁, by simp⟩
  · unfold commitsUpTo
    rw [hpointer, given_of_ne (c.isHash i).ne_empty]
    have hne : c.hash i ≠ c.hash head := fun h => hsame (c.distinct h)
    simp only [if_neg hne]
    refine (Yields.say _).bind fun _ _ => ?_
    refine (yields_commits (p := fun text => ∃ entries, text = LogEntry.logText entries ∧
      (entries.map LogEntry.hash).Perm ((c.between i head).map c.hash))
      hgit.toTellsChanges fun history => ?_).imp fun found hfound => ?_
    · obtain ⟨entries, hanswer, hentries⟩ := hgit.range history i head
      exact ⟨_, hanswer, entries, rfl, hentries⟩
    · obtain ⟨_, ⟨entries, rfl, hentries⟩, hhashes⟩ := hfound
      rw [hhashes, LogEntry.hashesIn_logText]
      exact hentries

end Detector

/-- The hashes in a report of new commits; a report of a span of time tells nothing new. -/
def Turn.news (t : Turn) : List String :=
  match t.request with
  | .sinceLast => t.found.map Commit.hash
  | .recent _ => []

/-- A turn that takes the last processed commit from one position of a chain to another. -/
structure Turn.Moves (t : Turn) (c : Chain) (i j : Fin c.size) : Prop where
  answered : ∃ found, t.answer = .ok found
  /-- What is new are the commits between. -/
  news : t.news.Perm ((c.between i j).map c.hash)
  pointer : t.after.pointer = some (c.hash j)
  held : t.after.store.Holds t.left (c.hash j)

namespace Detector

open Chain Detection

variable {c : Chain} {d : Detector} {w w₁ : World} {head i : Fin c.size}

/-- Where the path leads nowhere the position stays. -/
theorem moves_turn_of_absent [Nesting.Room] (request : Request)
    (hpath : pathExists w d.path = .ok false)
    (hpointer : d.pointer = some (c.hash i)) (hheld : d.store.Holds w (c.hash i)) :
    (d.turn request w).Moves c i i := by
  obtain ⟨w₁, hclosed, hbase⟩ := outcome_openRepository_of_absent hpath
  rw [turn_eq (outcome_detect_of_closed request hclosed)]
  refine ⟨⟨[], rfl⟩, ?_, hpointer, hheld.of_base hbase⟩
  rw [between_self]
  cases request with
  | sinceLast => exact .nil
  | recent span => exact .nil

/-- A report of a span of time leaves the position where it is. -/
theorem moves_turn_recent [Nesting.Room] (span : Lookback) (hpath : pathExists w d.path = .ok true)
    (hgit : w.git.Follows c head) (hpointer : d.pointer = some (c.hash i))
    (hheld : d.store.Holds w (c.hash i)) : (d.turn (.recent span) w).Moves c i i := by
  obtain ⟨text, hanswer⟩ := hgit.opened w.calls d.path
  have hopen := outcome_openRepository_of_ok hpath hanswer
  have hlog : ∀ history, ∃ text,
      w.git.answer history (.log none (some (since span))) = .ok text ∧ True := by
    intro history
    obtain ⟨text, hanswer⟩ := hgit.span history (since span)
    exact ⟨text, hanswer, trivial⟩
  obtain ⟨found, w₂, hfound, hbase, -⟩ := yields_commits (d := d) hgit.toTellsChanges hlog
    ((w.issued (.opened d.path)).said
      (Terminal.paint Terminal.grey ("🔍 Getting changes from last " ++ span.text ++ " hours")))
    (World.base_said _ _)
  have hscan : outcome (scanRecent span) (d, w) = (.ok found, d, w₂) := by
    unfold scanRecent
    rw [outcome_bind_of_ok outcome_detector, outcome_bind_of_ok (outcome_ofRun hopen)]
    simp only [if_true]
    rw [outcome_bind_of_ok (outcome_ofRun (outcome_say _ _))]
    exact outcome_ofRun hfound
  have hturn : d.turn (.recent span) w = ⟨.recent span, d, w, .ok found, d, w₂⟩ :=
    turn_eq (outcome_recover_of_ok hscan _ _)
  rw [hturn]
  refine ⟨⟨found, rfl⟩, ?_, hpointer, hheld.of_base hbase⟩
  rw [between_self]
  exact .nil

/-- A report of new commits takes the position to the one checked out, unless that lies before. -/
theorem moves_turn_sinceLast [Nesting.Room] (hpath : pathExists w d.path = .ok true)
    (hgit : w.git.Follows c head) (hpointer : d.pointer = some (c.hash i))
    (hheld : d.store.Holds w (c.hash i)) (htakes : d.store.Takes w (c.hash head)) :
    (d.turn .sinceLast w).Moves c i (max i head) := by
  obtain ⟨opened, hanswer⟩ := hgit.opened w.calls d.path
  obtain ⟨text, hhead, htext⟩ := hgit.head (w.calls ++ [.opened d.path])
  have hscan := outcome_scanSinceLast_of_ok hpath hanswer hhead
  rw [PointerStore.hashIn_of_trimString htext (c.isHash head).ne_empty] at hscan
  obtain ⟨found, w₂, hfound, hbase, hhashes⟩ :=
    yields_commitsUpTo hgit hpointer ((w.issued (.opened d.path)).issued .head) rfl
  by_cases hle : head ≤ i
  · have hnil : c.between i head = [] := between_eq_nil_iff.mpr hle
    rw [hnil] at hhashes
    obtain rfl : found = [] := List.map_eq_nil_iff.mp hhashes.eq_nil
    rw [outcome_reportUpTo_of_nil hfound] at hscan
    have hturn : d.turn .sinceLast w = ⟨.sinceLast, d, w, .ok [], d, w₂⟩ :=
      turn_eq (outcome_recover_of_ok hscan _ _)
    rw [hturn, max_eq_left hle]
    refine ⟨⟨[], rfl⟩, ?_, hpointer, hheld.of_base hbase⟩
    rw [between_self]
    exact .nil
  · rw [not_le] at hle
    have hne : found ≠ [] := by
      rintro rfl
      have hnil : c.between i head = [] := List.map_eq_nil_iff.mp hhashes.symm.eq_nil
      exact absurd (between_eq_nil_iff.mp hnil) (not_le.mpr hle)
    have hreturn : '\r' ∉ (c.hash head).toList := fun hmem =>
      absurd ((c.isHash head).oneLine _ hmem) (by decide)
    obtain ⟨store, w₃, hsave, hholds⟩ := PointerStore.exists_save_of_takes
      (c.isHash head).ne_empty (c.isHash head).trimmed hreturn htakes hbase
    obtain ⟨w₄, hreport, hbase₄⟩ := exists_reportUpTo_of_save hfound hne hsave
    rw [hreport] at hscan
    have hturn : d.turn .sinceLast w = ⟨.sinceLast, d, w, .ok found,
        { d with store := store, pointer := some (c.hash head) }, w₄⟩ :=
      turn_eq (outcome_recover_of_ok hscan _ _)
    rw [hturn, max_eq_right hle.le]
    exact ⟨⟨found, rfl⟩, hhashes, rfl, hholds.of_base hbase₄⟩

end Detector

end DesignTokens
