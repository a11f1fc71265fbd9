import DesignTokens.Proofs.History.Answered
import DesignTokens.Proofs.History.Printed
import DesignTokens.Proofs.History.Session
import DesignTokens.Proofs.History.Told

/-!
# What failed commands cost

A detector is asked for new commits again and again, while the commands for what a commit touches
and changes may fail in one turn and be answered in another. A turn that reports commits takes the
last processed commit to the one checked out, whatever failed in it. So every commit is reported
once, in the turn that first has it in its range, with what is told of it then; what is missed then
is not told later.
-/

namespace DesignTokens

/-- The version control system tells the commits of a chain, with one of them checked out; what they
touch and change it tells too, or fails by itself at times. -/
structure GitService.FollowsAtTimes (g : GitService) {c : Chain} (k : Fin c.size → Contents)
    (head : Fin c.size) : Prop where
  opened : ∀ history path, ∃ text, g.answer history (.opened path) = .ok text
  head : ∀ history, ∃ text, g.answer history .head = .ok text ∧ Text.trimString text = c.hash head
  range : ∀ history i j, ∃ entries,
    g.answer history (.log (some (c.hash i ++ ".." ++ c.hash j)) none) =
      .ok (LogEntry.logText entries) ∧
    (entries.map LogEntry.hash).Perm ((c.between i j).map c.hash)
  commit : ∀ i, g.TellsCommit (c.hash i) (k i)

variable {c : Chain} {k : Fin c.size → Contents} {lookahead : Int}

/-- There is only one commit checked out. -/
theorem GitService.FollowsAtTimes.head_unique {g : GitService} {i j : Fin c.size}
    (hi : g.FollowsAtTimes k i) (hj : g.FollowsAtTimes k j) : i = j := by
  obtain ⟨text, hanswer, htext⟩ := hi.head []
  obtain ⟨text', hanswer', htext'⟩ := hj.head []
  obtain rfl := Except.ok.inj (hanswer.symm.trans hanswer')
  exact c.distinct (htext.symm.trans htext')

/-- How a turn takes the last processed commit from one position of a chain to another, with a
commit checked out. -/
inductive Turn.Takes [Nesting.Room] (t : Turn) (k : Fin c.size → Contents) (lookahead : Int)
    (i head : Fin c.size) : Fin c.size → Prop
  /-- The commits after the position up to the one checked out are reported, each as far as it is
  told in this turn, and the last processed commit is the further of the two. -/
  | reported {found : List Commit} (hanswer : t.answer = .ok found)
    (hnews : (found.map Commit.hash).Perm ((c.between i head).map c.hash))
    (htold : ∀ commit ∈ found, t.world.TellsCommit t.left k lookahead commit)
    (hpointer : t.after.pointer = some (c.hash (max i head))) :
    t.Takes k lookahead i head (max i head)
  /-- A diff cannot be read, or the store cannot take a commit; nothing is reported and the detector
  stays as it is. -/
  | kept (hwhy : t.world.MeetsUnreadable t.left ∨ ¬t.before.store.IsUsable)
    (hnothing : t.found = []) (hafter : t.after = t.before) :
    t.Takes k lookahead i head i

namespace Turn.Takes

variable [Nesting.Room]

variable {t : Turn} {i j head : Fin c.size}

theorem le (h : t.Takes k lookahead i head j) : i ≤ j := by
  cases h with
  | reported _ _ _ _ => exact le_max_left i head
  | kept _ _ _ => exact le_rfl

theorem pointer (h : t.Takes k lookahead i head j) (hbefore : t.before.pointer = some (c.hash i)) :
    t.after.pointer = some (c.hash j) := by
  cases h with
  | reported _ _ _ hpointer => exact hpointer
  | kept _ _ hafter => rwa [hafter]

/-- The turn reports the commits between the two positions. -/
theorem news (h : t.Takes k lookahead i head j) :
    (t.found.map Commit.hash).Perm ((c.between i j).map c.hash) := by
  cases h with
  | kept _ hnothing _ => simp [hnothing]
  | reported hanswer hnews _ _ =>
    have hfound : t.found = _ := congrArg (fun r => (Except.toOption r).getD []) hanswer
    rw [hfound]
    rcases le_total head i with hle | hle
    · rwa [max_eq_left hle, Chain.between_self, ← Chain.between_eq_nil_iff.mpr hle]
    · rwa [max_eq_right hle]

/-- The last processed commit goes no further than the one checked out. -/
theorem le_max (h : t.Takes k lookahead i head j) : j ≤ max i head := by
  cases h with
  | reported _ _ _ _ => exact le_rfl
  | kept _ _ _ => exact le_max_left i head

/-- With the last processed commit checked out nothing is reported. -/
theorem found_eq_nil (h : t.Takes k lookahead i i j) : t.found = [] := by
  obtain rfl : i = j := le_antisymm h.le (by simpa using h.le_max)
  have hnews := h.news
  rw [Chain.between_self] at hnews
  exact List.map_eq_nil_iff.mp hnews.eq_nil

/-- Every commit that is reported is one of the chain, told as far as it is in the turn. -/
theorem exists_tells (h : t.Takes k lookahead i head j) {commit : Commit}
    (hcommit : commit ∈ t.found) :
    ∃ m, c.hash m = commit.hash ∧
      t.world.TellsChanges t.left (k m) (c.hash m) lookahead commit.changes := by
  obtain ⟨m, -, hm⟩ := List.mem_map.mp (h.news.mem_iff.mp (List.mem_map_of_mem hcommit))
  cases h with
  | kept _ hnothing _ => simp [hnothing] at hcommit
  | reported hanswer _ htold _ =>
    rw [Turn.found, hanswer] at hcommit
    exact ⟨m, hm, htold commit hcommit m hm.symm⟩

/-- A commit of which the turn misses nothing is reported with all its changes. -/
theorem exists_changes (h : t.Takes k lookahead i head j) {commit : Commit}
    (hcommit : commit ∈ t.found) (hmiss : ¬t.world.Misses t.left commit.hash) :
    ∃ m, c.hash m = commit.hash ∧ (k m).changes lookahead = .ok commit.changes := by
  obtain ⟨m, hm, htold⟩ := h.exists_tells hcommit
  exact ⟨m, hm, htold.eq_changes (hm ▸ hmiss)⟩

/-- With diffs that can be read and a store that can take commits, the last processed commit is the
further of the two positions. -/
theorem eq_max (h : t.Takes k lookahead i head j) (hread : ¬t.world.MeetsUnreadable t.left)
    (hstore : t.before.store.IsUsable) : j = max i head := by
  cases h with
  | reported _ _ _ _ => rfl
  | kept hwhy _ _ => exact absurd hwhy (not_or.mpr ⟨hread, not_not_intro hstore⟩)

end Turn.Takes

namespace Detector

variable {d : Detector} {w first : World} {head i : Fin c.size}

open Detection

/-- What is new up to the commit that is checked out is told as far as the commands for it are
answered. -/
theorem reads_commitsUpTo (hgit : w.git.FollowsAtTimes k head)
    (hpointer : d.pointer = some (c.hash i)) (hfirst : first.Precedes w) :
    Reads first w (d.commitsUpTo (c.hash head)) fun w' found =>
      (found.map Commit.hash).Perm ((c.between i head).map c.hash) ∧
        ∀ commit ∈ found, first.TellsCommit w' k d.lookahead commit := by
  by_cases hsame : i = head
  · subst hsame
    obtain ⟨w₁, hnothing, hcalls, hbase⟩ :=
      exists_commitsUpTo_of_eq (c.isHash i).ne_empty hpointer (w := w)
    exact .answered hnothing ⟨hbase, by simp [hcalls]⟩ (by simp)
  · unfold commitsUpTo
    rw [hpointer, given_of_ne (c.isHash i).ne_empty]
    have hne : c.hash i ≠ c.hash head := fun h => hsame (c.distinct h)
    simp only [if_neg hne]
    apply (Reads.say _).bind
    intro _ w₁ hw₁ _
    have hgit₁ : w₁.git.FollowsAtTimes k head := by rwa [hw₁.git]
    exact reads_commits (fun history => hgit₁.range history i head) hgit₁.commit
      (hfirst.trans hw₁)

variable [Nesting.Room]

/-- A commit is remembered in the detector without a command, unless the store cannot take
commits. -/
theorem advance_cases (d : Detector) (w : World) (hash : String) :
    (∃ store w₁, outcome (advance hash) (d, w) =
        (.ok (), { d with store := store, pointer := some hash }, w₁) ∧ w₁.calls = w.calls) ∨
      ∃ e w₁, outcome (advance hash) (d, w) = (.error e, d, w₁) ∧ ¬d.store.IsUsable := by
  rcases hsave : outcome (d.store.save hash) w with ⟨e | store, w₁⟩
  · refine .inr ⟨e, w₁, outcome_advance_of_error hsave, fun hstore => ?_⟩
    obtain ⟨after, w₂, hsaved, -⟩ := hstore.save hash w
    cases hsave.symm.trans hsaved
  · obtain ⟨w₂, hadvance, -, hcalls⟩ := outcome_advance_of_ok hsave
    have hkept := (d.store.spares_save hash).kept w
    rw [hsave] at hkept
    exact .inl ⟨store, w₂, hadvance, hcalls.trans (congrArg Prod.snd hkept)⟩

section Ends

variable {d' : Detector} {w₁ : World} {e : Failure}

/-- A search that is stopped by a diff leaves the position where it is. -/
theorem takes_of_stopped (hscan : outcome scanSinceLast (d, w) = (.error e, d, w₁))
    (he : e.isGitOrFile = false) (hdiff : w.MeetsUnreadable w₁) :
    (d.turn .sinceLast w).Takes k lookahead i head i := by
  have hdetect : outcome Request.sinceLast.detect (d, w) = (.error e, d, w₁) := by
    refine (outcome_recover_of_error hscan _ _).trans ?_
    simp [he]
  rw [turn_eq hdetect]
  exact .kept (.inl hdiff) rfl rfl

/-- A search whose commit the store refuses leaves the position where it is. -/
theorem takes_of_refused (hscan : outcome scanSinceLast (d, w) = (.error e, d, w₁))
    (hstore : ¬d.store.IsUsable) : (d.turn .sinceLast w).Takes k lookahead i head i := by
  obtain ⟨answer, w₂, hdetect, hnothing⟩ :=
    exists_outcome_reporting_of_error "changes since last scan" hscan
  have hturn : d.turn .sinceLast w = ⟨.sinceLast, d, w, answer, d, w₂⟩ := turn_eq hdetect
  rw [hturn]
  refine .kept (.inr hstore) ?_ rfl
  cases answer with
  | error e => rfl
  | ok found => exact hnothing found rfl

/-- A search that ends takes the position to the commit that is checked out. -/
theorem takes_of_found {found : List Commit}
    (hscan : outcome scanSinceLast (d, w) = (.ok found, d', w₁))
    (hnews : (found.map Commit.hash).Perm ((c.between i head).map c.hash))
    (htold : ∀ commit ∈ found, w.TellsCommit w₁ k lookahead commit)
    (hpointer : d'.pointer = some (c.hash (max i head))) :
    (d.turn .sinceLast w).Takes k lookahead i head (max i head) := by
  have hdetect : outcome Request.sinceLast.detect (d, w) = (.ok found, d', w₁) :=
    outcome_recover_of_ok hscan _ _
  rw [turn_eq hdetect]
  exact .reported rfl hnews htold hpointer

end Ends

/-- One turn takes the last processed commit to the one checked out, whatever fails in it. -/
theorem exists_takes_turn (hpath : pathExists w d.path = .ok true)
    (hgit : w.git.FollowsAtTimes k head) (hpointer : d.pointer = some (c.hash i)) :
    ∃ j, (d.turn .sinceLast w).Takes k d.lookahead i head j := by
  obtain ⟨opened, hanswer⟩ := hgit.opened w.calls d.path
  obtain ⟨text, hhead, htext⟩ := hgit.head (w.calls ++ [.opened d.path])
  have hscan := outcome_scanSinceLast_of_ok hpath hanswer hhead
  rw [PointerStore.hashIn_of_trimString htext (c.isHash head).ne_empty] at hscan
  have hfirst : w.Precedes ((w.issued (.opened d.path)).issued .head) :=
    (World.Precedes.issued w _).trans (.issued _ _)
  cases reads_commitsUpTo (w := (w.issued (.opened d.path)).issued .head) hgit hpointer hfirst with
  | stopped hfound hlater he hdiff =>
    rw [outcome_reportUpTo_of_error hfound] at hscan
    exact ⟨i, takes_of_stopped hscan he hdiff⟩
  | @answered found w₁ hfound hlater htold =>
    obtain ⟨hnews, htold⟩ := htold
    -- Only whether commits were found counts from here on, not what was told of them.
    by_cases hne : found = []
    · subst hne
      rw [outcome_reportUpTo_of_nil hfound] at hscan
      have hle : head ≤ i := by
        apply Chain.between_eq_nil_iff.mp
        exact List.map_eq_nil_iff.mp hnews.symm.eq_nil
      exact ⟨_, takes_of_found hscan hnews htold (by rwa [max_eq_left hle])⟩
    · rw [outcome_reportUpTo_of_ne_nil hfound hne] at hscan
      rcases advance_cases d w₁ (c.hash head) with
        ⟨store, w₂, hadvance, hcalls⟩ | ⟨e, w₂, hadvance, hstore⟩
      · rw [outcome_bind_of_ok hadvance] at hscan
        have hle : i ≤ head := by
          by_contra hlt
          rw [Chain.between_eq_nil_iff.mpr (le_of_not_ge hlt)] at hnews
          exact hne (List.map_eq_nil_iff.mp hnews.eq_nil)
        refine ⟨_, takes_of_found hscan hnews (fun commit hcommit => ?_) ?_⟩
        · exact (htold commit hcommit).mono (by simp [hcalls])
        · rw [max_eq_right hle]
      · rw [outcome_bind_of_error hadvance] at hscan
        exact ⟨i, takes_of_refused hscan hstore⟩

end Detector

/-- Turns that take the last processed commit along a chain, in which the commands for what commits
touch and change may fail at times. -/
inductive Course [Nesting.Room] (k : Fin c.size → Contents) (lookahead : Int) :
    Fin c.size → List Turn → Fin c.size → Prop
  | done (i : Fin c.size) : Course k lookahead i [] i
  | step {i j last head : Fin c.size} {t : Turn} {turns : List Turn}
    (hgit : t.world.git.FollowsAtTimes k head) (htakes : t.Takes k lookahead i head j)
    (hrest : Course k lookahead j turns last) : Course k lookahead i (t :: turns) last

/-- The turns of a detector that is asked for new commits, each time in a world of its own. -/
def Detector.watch [Nesting.Room] (d : Detector) (worlds : List World) : List Turn :=
  d.turns (worlds.map fun w => (.sinceLast, w))

/-- The commits that turns report, one turn after the other. -/
def Turn.allFound (turns : List Turn) : List Commit := turns.flatMap Turn.found

namespace Course

variable [Nesting.Room]

variable {i j : Fin c.size} {turns : List Turn}

theorem le (h : Course k lookahead i turns j) : i ≤ j := by
  induction h with
  | done i => exact le_rfl
  | step _ htakes _ ih => exact htakes.le.trans ih

/-- A course goes on after its first turn. -/
theorem exists_rest {t : Turn} (h : Course k lookahead i (t :: turns) j) :
    ∃ next head, t.world.git.FollowsAtTimes k head ∧ t.Takes k lookahead i head next ∧
      Course k lookahead next turns j := by
  cases h with
  | step hgit htakes hrest => exact ⟨_, _, hgit, htakes, hrest⟩

/-- Without turns a course stays where it is. -/
theorem eq_of_nil (h : Course k lookahead i [] j) : i = j := by
  cases h
  rfl

/-- Together the turns report the commits between the first position and the last. -/
theorem allFound_perm (h : Course k lookahead i turns j) :
    ((Turn.allFound turns).map Commit.hash).Perm ((c.between i j).map c.hash) := by
  induction h with
  | done i => simp [Turn.allFound]
  | step _ htakes hrest ih =>
    have hbetween := (Chain.between_append_perm htakes.le hrest.le).map c.hash
    rw [List.map_append] at hbetween
    simp only [Turn.allFound, List.flatMap_cons, List.map_append]
    exact (htakes.news.append ih).trans hbetween

/-- Every turn of a course takes the last processed commit from one position to another. -/
theorem exists_takes (h : Course k lookahead i turns j) {t : Turn} (ht : t ∈ turns) :
    ∃ i head j, t.Takes k lookahead i head j := by
  induction h with
  | done i => cases ht
  | step _ htakes _ ih =>
    rcases List.mem_cons.mp ht with rfl | ht
    · exact ⟨_, _, _, htakes⟩
    · exact ih ht

end Course

namespace Detector

variable {d : Detector} {i : Fin c.size}

/-- Turns on a chain are a course from the position of the last processed commit. -/
theorem exists_course [Nesting.Room] {worlds : List World} (hpointer : d.pointer = some (c.hash i))
    (hworlds : ∀ w ∈ worlds, pathExists w d.path = .ok true ∧
      ∃ head : Fin c.size, w.git.FollowsAtTimes k head) :
    ∃ j, Course k d.lookahead i (d.watch worlds) j := by
  -- A turn leaves the detector at a position again; its path and lookahead never change.
  induction worlds generalizing d i with
  | nil => exact ⟨i, .done i⟩
  | cons w worlds ih =>
    obtain ⟨hpath, head, hgit⟩ := hworlds w List.mem_cons_self
    obtain ⟨j, htakes⟩ := exists_takes_turn hpath hgit hpointer
    have hrest : ∀ w' ∈ worlds, pathExists w' (d.turn .sinceLast w).after.path = .ok true ∧
        ∃ head : Fin c.size, w'.git.FollowsAtTimes k head := by
      rw [path_turn]
      exact fun w' hw' => hworlds w' (List.mem_cons_of_mem w hw')
    obtain ⟨last, hcourse⟩ := ih (htakes.pointer hpointer) hrest
    rw [lookahead_turn] at hcourse
    exact ⟨last, .step hgit htakes hcourse⟩

/-- However the commands for what commits touch and change fail and are answered again from turn to
turn, the turns are a course: each takes the last processed commit on and reports the commits it
passes, as far as it is told of them. Over all turns each commit is reported exactly once, so what
its turn misses of it is reported by no other; it is reported with all its changes if that turn
misses nothing of it. -/
theorem exists_course_turns [Nesting.Room] {worlds : List World}
    (hpointer : d.pointer = some (c.hash i))
    (hworlds : ∀ w ∈ worlds, pathExists w d.path = .ok true ∧
      ∃ head : Fin c.size, w.git.FollowsAtTimes k head) :
    ∃ j, Course k d.lookahead i (d.watch worlds) j ∧
      ((Turn.allFound (d.watch worlds)).map Commit.hash).Perm
        ((c.between i j).map c.hash) ∧
      ((Turn.allFound (d.watch worlds)).map Commit.hash).Nodup ∧
      ∀ t ∈ d.watch worlds, ∀ commit ∈ t.found,
        ¬t.world.Misses t.left commit.hash →
          ∃ m, c.hash m = commit.hash ∧ (k m).changes d.lookahead = .ok commit.changes := by
  obtain ⟨j, hcourse⟩ := exists_course hpointer hworlds
  have hperm := hcourse.allFound_perm
  refine ⟨j, hcourse, hperm, ?_, fun t ht commit hcommit hmiss => ?_⟩
  · exact hperm.nodup_iff.mpr ((Chain.nodup_between i j).map c.distinct)
  · obtain ⟨_, _, _, htakes⟩ := hcourse.exists_takes ht
    exact htakes.exists_changes hcommit hmiss

end Detector

namespace Chain

/-- What a commit of a chain holds, by its hash. -/
def contentsOf (c : Chain) (k : Fin c.size → Contents) (hash : String) : Contents :=
  match (List.finRange c.size).find? fun i => c.hash i == hash with
  | some i => k i
  | none => ⟨"", fun _ => ""⟩

theorem contentsOf_hash (k : Fin c.size → Contents) (i : Fin c.size) :
    c.contentsOf k (c.hash i) = k i := by
  have hhashes : ((List.finRange c.size).map c.hash).Nodup :=
    (List.nodup_finRange c.size).map c.distinct
  have hfind : ((List.finRange c.size).find? fun j => c.hash j == c.hash i) = some i :=
    (find?_key_eq_some_iff hhashes).mpr ⟨List.mem_finRange i, rfl⟩
  simp only [contentsOf, hfind]

/-- A version control system that tells a chain and what its commits hold, but for some commits for
which commands fail. -/
def unsteadyService (c : Chain) (k : Fin c.size → Contents) (missed : List String)
    (head : Fin c.size) : GitService where
  answer history call :=
    match call with
    | .filesOf hash =>
      if hash ∈ missed then .error ⟨.general, "no answer"⟩ else .ok (c.contentsOf k hash).files
    | .diffOf hash file =>
      if hash ∈ missed then .error ⟨.general, "no answer"⟩
      else .ok ((c.contentsOf k hash).diff file)
    | call => (c.service head).answer history call
  origin _ := .ok ()
  cloned _ _ := .ok []

/-- The files of a commit that is missed are not told. -/
theorem answer_filesOf_of_mem {missed : List String} {hash : String} (k : Fin c.size → Contents)
    (head : Fin c.size) (h : hash ∈ missed) (history : List GitCall) :
    (c.unsteadyService k missed head).answer history (.filesOf hash) =
      .error ⟨.general, "no answer"⟩ :=
  if_pos h

/-- If the ranges of a chain are told apart, the version control system follows it at times. -/
theorem followsAtTimes_unsteadyService
    (hapart : ∀ i j k l, c.hash i ++ ".." ++ c.hash j = c.hash k ++ ".." ++ c.hash l →
      i = k ∧ j = l) (k : Fin c.size → Contents) (missed : List String) (head : Fin c.size) :
    (c.unsteadyService k missed head).FollowsAtTimes k head where
  opened := (follows_service hapart head).opened
  head := (follows_service hapart head).head
  range := (follows_service hapart head).range
  commit i := by
    constructor
    · intro history
      by_cases hmissed : c.hash i ∈ missed
      · exact .inr ⟨_, if_pos hmissed, rfl⟩
      · exact .inl ((if_neg hmissed).trans (by rw [contentsOf_hash]))
    · intro file history
      by_cases hmissed : c.hash i ∈ missed
      · exact .inr ⟨_, if_pos hmissed, rfl⟩
      · exact .inl ((if_neg hmissed).trans (by rw [contentsOf_hash]))

/-- A command for a commit fails only if the commit is one of those missed. -/
theorem mem_of_misses {missed : List String} {head : Fin c.size} {w w' : World} {hash : String}
    (hgit : w.git = c.unsteadyService k missed head) (h : w.Misses w' hash) : hash ∈ missed := by
  by_contra hmissed
  obtain ⟨f, ⟨history, -, -, hanswer⟩ | ⟨file, history, -, -, hanswer⟩⟩ := h
  · simp [hgit, unsteadyService, hmissed] at hanswer
  · simp [hgit, unsteadyService, hmissed] at hanswer

end Chain

namespace Turn

/-- The last processed commit is before every commit that the turn misses something of. -/
def HoldsBack (t : Turn) (c : Chain) : Prop :=
  ∀ m, t.world.Misses t.left (c.hash m) → ∃ j, j < m ∧ t.after.pointer = some (c.hash j)

/-- Every commit that the turn misses something of is reported with all its changes by one of the
turns after it, if one of them reaches the commit and misses nothing. -/
def IsMadeUpBy (t : Turn) (k : Fin c.size → Contents) (lookahead : Int) (later : List Turn) :
    Prop :=
  ∀ m, t.world.Misses t.left (c.hash m) →
    (∃ u ∈ later, ∃ head, m ≤ head ∧ u.world.git.FollowsAtTimes k head ∧
      ∀ hash, ¬u.world.Misses u.left hash) →
    ∃ u ∈ later, ∃ commit ∈ u.found, commit.hash = c.hash m ∧
      (k m).changes lookahead = .ok commit.changes

end Turn

/-- Commits that add a file of tokens each. -/
def oneFileEach (_ : Fin threeCommits.size) : Contents := ⟨"A\ttokens.scss", fun _ => ""⟩

/-- A world with a repository of three commits at its root, for some of which commands fail. -/
def unsteadyWorld (missed : List String) (head : Fin 3) : World :=
  { threeCommitsWorld head with git := threeCommits.unsteadyService oneFileEach missed head }

/-- A detector that has processed the first of the commits. -/
def firstProcessed : Detector := ⟨.text "/", .memory (some "a1"), 24, 10, some "a1"⟩

/-- The second commit is checked out twice; the first time no command for it is answered. -/
def unsteadyWorlds : List World := [unsteadyWorld ["b2"] 1, unsteadyWorld [] 1]

theorem followsAtTimes_unsteadyWorld (missed : List String) (head : Fin threeCommits.size) :
    (unsteadyWorld missed head).git.FollowsAtTimes oneFileEach head := by
  have hapart : ∀ i j k l : Fin 3, threeCommits.hash i ++ ".." ++ threeCommits.hash j =
      threeCommits.hash k ++ ".." ++ threeCommits.hash l → i = k ∧ j = l := by decide
  exact Chain.followsAtTimes_unsteadyService (c := threeCommits) hapart oneFileEach missed head

theorem followsAtTimes_unsteadyWorlds : ∀ w ∈ unsteadyWorlds,
    Detector.pathExists w firstProcessed.path = .ok true ∧
      ∃ head : Fin threeCommits.size, w.git.FollowsAtTimes oneFileEach head := by
  intro w hw
  simp only [unsteadyWorlds, List.mem_cons, List.not_mem_nil, or_false] at hw
  rcases hw with rfl | rfl
  · exact ⟨rfl, (1 : Fin 3), followsAtTimes_unsteadyWorld _ _⟩
  · exact ⟨rfl, (1 : Fin 3), followsAtTimes_unsteadyWorld _ _⟩

attribute [local instance] Nesting.Room.ample

/-- No diff in that repository is one that cannot be read. -/
theorem not_meetsUnreadable_unsteadyWorld {missed : List String} {head : Fin 3} {w : World} :
    ¬(unsteadyWorld missed head).MeetsUnreadable w := by
  rintro ⟨hash, file, diff, ⟨history, -, -, hanswer⟩, hdiff⟩
  have hempty : (threeCommits.contentsOf oneFileEach hash).diff file = "" := by
    unfold Chain.contentsOf
    split
    · rfl
    · rfl
  simp only [unsteadyWorld, Chain.unsteadyService, hempty] at hanswer
  split at hanswer
  · cases hanswer
  · obtain rfl := Except.ok.inj hanswer
    exact Detector.not_unreadable_empty hdiff

/-- Both turns leave the last processed commit at the second one, which the first turn reports. -/
theorem exists_course_unsteadyWorlds :
    firstProcessed.pointer = some (threeCommits.hash (0 : Fin 3)) ∧
      (∀ w ∈ unsteadyWorlds, Detector.pathExists w firstProcessed.path = .ok true ∧
        ∃ head : Fin threeCommits.size, w.git.FollowsAtTimes oneFileEach head) ∧
      Course oneFileEach 10 (0 : Fin 3)
        (firstProcessed.watch unsteadyWorlds) (1 : Fin 3) ∧
      (Turn.allFound (firstProcessed.watch unsteadyWorlds)).map Commit.hash = ["b2"] := by
  have hpointer : firstProcessed.pointer = some (threeCommits.hash (0 : Fin 3)) := rfl
  obtain ⟨j, hcourse, hreported, -⟩ :=
    Detector.exists_course_turns (k := oneFileEach) hpointer followsAtTimes_unsteadyWorlds
  have hj : j = (1 : Fin 3) := by
    obtain ⟨_, _, hgit, hfirst, hrest⟩ := hcourse.exists_rest
    obtain ⟨_, _, hgit', hsecond, hdone⟩ := hrest.exists_rest
    obtain rfl := hdone.eq_of_nil
    obtain rfl := hgit.head_unique (followsAtTimes_unsteadyWorld ["b2"] (1 : Fin 3))
    obtain rfl := hgit'.head_unique (followsAtTimes_unsteadyWorld [] (1 : Fin 3))
    obtain rfl := hfirst.eq_max not_meetsUnreadable_unsteadyWorld trivial
    exact le_antisymm hsecond.le_max hsecond.le
  subst hj
  have hbetween : (threeCommits.between (0 : Fin 3) (1 : Fin 3)).map threeCommits.hash =
      ["b2"] := by decide
  rw [hbetween] at hreported
  exact ⟨hpointer, followsAtTimes_unsteadyWorlds, hcourse, List.perm_singleton.mp hreported⟩

/-- The turn in which no command for the second commit is answered. -/
def missingTurn : Turn := firstProcessed.turn .sinceLast (unsteadyWorld ["b2"] 1)

/-- The turn after it, in which all commands are answered. -/
def steadyTurn : Turn := missingTurn.after.turn .sinceLast (unsteadyWorld [] 1)

theorem takes_missingTurn :
    missingTurn.Takes oneFileEach 10 (0 : Fin 3) (1 : Fin 3) (1 : Fin 3) := by
  obtain ⟨j, htakes⟩ := Detector.exists_takes_turn (d := firstProcessed) (i := (0 : Fin 3))
    (w := unsteadyWorld ["b2"] 1) rfl (followsAtTimes_unsteadyWorld ["b2"] (1 : Fin 3)) rfl
  obtain rfl := htakes.eq_max not_meetsUnreadable_unsteadyWorld trivial
  exact htakes

/-- The last processed commit is the second one after the turn that misses it. -/
theorem pointer_missingTurn : missingTurn.after.pointer = some (threeCommits.hash (1 : Fin 3)) :=
  takes_missingTurn.pointer rfl

theorem misses_missingTurn :
    missingTurn.world.Misses missingTurn.left (threeCommits.hash (1 : Fin 3)) := by
  have hnews : threeCommits.hash (1 : Fin 3) ∈ missingTurn.found.map Commit.hash := by
    apply takes_missingTurn.news.mem_iff.mpr
    decide
  obtain ⟨commit, hcommit, hhash⟩ := List.mem_map.mp hnews
  obtain ⟨m, hm, htold⟩ := takes_missingTurn.exists_tells hcommit
  obtain rfl := threeCommits.distinct (hm.trans hhash)
  cases htold with
  | unlisted hasked _ => exact ⟨_, .inl hasked⟩
  | listed hasked _ =>
    obtain ⟨history, -, -, hanswer⟩ := hasked
    have hmissed : threeCommits.hash (1 : Fin 3) ∈ ["b2"] := List.mem_singleton.mpr rfl
    have hfails := Chain.answer_filesOf_of_mem oneFileEach (1 : Fin 3) hmissed history
    cases hfails.symm.trans hanswer

/-- The turn after it reports nothing. -/
theorem found_steadyTurn : steadyTurn.found = [] := by
  have hpath : Detector.pathExists (unsteadyWorld [] 1) missingTurn.after.path = .ok true := by
    rw [missingTurn, Detector.path_turn]
    rfl
  obtain ⟨last, htakes⟩ := Detector.exists_takes_turn hpath
    (followsAtTimes_unsteadyWorld [] (1 : Fin 3)) pointer_missingTurn
  exact htakes.found_eq_nil

/-- What the first turn misses is lost: it takes the last processed commit to the one it misses, and
the second turn, which misses nothing, does not report that commit. -/
theorem not_holdsBack_unsteadyWorlds :
    (∀ w ∈ unsteadyWorlds, Detector.pathExists w firstProcessed.path = .ok true ∧
        ∃ head : Fin threeCommits.size, w.git.FollowsAtTimes oneFileEach head) ∧
      firstProcessed.watch unsteadyWorlds = [missingTurn, steadyTurn] ∧
      ¬missingTurn.HoldsBack threeCommits ∧
      ¬missingTurn.IsMadeUpBy oneFileEach firstProcessed.lookahead [steadyTurn] := by
  refine ⟨followsAtTimes_unsteadyWorlds, rfl, fun hheld => ?_, fun hmade => ?_⟩
  · obtain ⟨j, hlt, hj⟩ := hheld (1 : Fin 3) misses_missingTurn
    obtain rfl := threeCommits.distinct (Option.some.inj (pointer_missingTurn.symm.trans hj))
    exact absurd hlt (lt_irrefl _)
  · have hsteady : ∀ hash, ¬steadyTurn.world.Misses steadyTurn.left hash := by
      intro hash hmiss
      exact List.not_mem_nil (Chain.mem_of_misses rfl hmiss)
    obtain ⟨u, hu, commit, hcommit, -⟩ := hmade (1 : Fin 3) misses_missingTurn
      ⟨steadyTurn, List.mem_singleton.mpr rfl, (1 : Fin 3), le_rfl,
        followsAtTimes_unsteadyWorld [] (1 : Fin 3), hsteady⟩
    obtain rfl := List.mem_singleton.mp hu
    rw [found_steadyTurn] at hcommit
    cases hcommit

end DesignTokens
