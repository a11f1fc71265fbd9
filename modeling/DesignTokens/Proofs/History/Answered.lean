import DesignTokens.Proofs.History.Failures
import DesignTokens.Proofs.History.Search

/-!
# Reports that are answered

The runs that a report is made of are stopped by diffs that cannot be read and by nothing else that
the report does not handle: each is put together from commands, lines about the progress and parts
that came before it. A turn of a detector has an answer exactly if every diff it was answered can
be read.
-/

namespace DesignTokens

open Terminal

namespace Run.StopsAtDiffs

open DesignTokens.StopsAtDiffs

/-- A command with a value in place of its answer, and a warning, where it fails. -/
theorem asked {α : Type} {call : GitCall} (h : ∀ hash file, call ≠ .diffOf hash file)
    (f : String → α) (line : Failure → String) (a : α) :
    Run.StopsAtDiffs (Run.recover Failure.isGit (do return f (← Run.ask call)) fun e => do
      Run.warn (line e)
      Pure.pure a) := by
  refine ((ask h).bind fun text => pure (f text)).recover
    (fun _ => Failure.isGitOrFile_of_isGit) fun e => ?_
  exact (warn (line e)).bind fun _ => pure a

end Run.StopsAtDiffs

namespace Detector

variable {d : Detector} {w : World}

/-- A cause that says that there is no repository is a failed command. -/
theorem isGitOrFile_of_isNoRepository {e : Failure} (h : isNoRepository e = true) :
    e.isGitOrFile = true := by
  unfold isNoRepository at h
  split at h
  · rfl
  · rfl
  · cases h

/-- Opening a repository at a path that is a text is not stopped. -/
theorem stopsAtDiffs_openRepository {path : Spelling} (h : d.path = .text path) :
    Run.StopsAtDiffs d.openRepository := by
  unfold openRepository
  refine .read fun w => ?_
  have hfound : pathExists w d.path = .ok (path.plain?.any w.pathExists) := by
    rw [h]
    rfl
  rw [hfound]
  refine (StopsAtDiffs.pure _).bind fun found => ?_
  cases found with
  | false => exact (Run.StopsAtDiffs.warn _).bind fun _ => StopsAtDiffs.pure false
  | true =>
    have hopened : ∀ hash file, GitCall.opened d.path ≠ .diffOf hash file := nofun
    refine ((Run.StopsAtDiffs.ask hopened).discard.bind fun _ => StopsAtDiffs.pure true).recover
      (fun _ => isGitOrFile_of_isNoRepository) fun _ => ?_
    exact (Run.StopsAtDiffs.warn _).bind fun _ => StopsAtDiffs.pure false

section Diffs

variable {hash file diff : String} {lookahead : Int}

/-- No diff at all can be read. -/
theorem not_unreadable_empty : ¬Unreadable "" := by
  rw [not_unreadable_iff]
  decide

/-- A diff is what is answered, and empty where the command fails; the failure goes through if it is
not one of the version control system itself. -/
theorem exists_outcome_diffOf (hw : w.git.FailsByCommand) (hash file : String) :
    ∃ r w', outcome (diffOf hash file) w = (r, w') ∧ ¬Escapes r ∧
      w.Passes w' (∃ diff, r = .ok diff ∧ Unreadable diff) := by
  have hissue := World.Passes.issue w (.diffOf hash file)
  cases hanswer : w.git.answer w.calls (.diffOf hash file) with
  | ok diff =>
    refine ⟨.ok diff, _, outcome_recover_of_ok (outcome_ask_of_ok hanswer) _ _,
      not_escapes_ok diff, hissue.congr ⟨?_, ?_⟩⟩
    · rintro ⟨_, _, other, -, hsame, hother⟩
      obtain rfl := Except.ok.inj (hanswer.symm.trans hsame)
      exact ⟨diff, rfl, hother⟩
    · rintro ⟨other, hsame, hother⟩
      obtain rfl := Except.ok.inj hsame
      exact ⟨hash, file, diff, rfl, hanswer, hother⟩
  | error f =>
    have hnone : w.Passes (w.issued (.diffOf hash file)) False := by
      refine hissue.congr (iff_false_intro ?_)
      rintro ⟨_, _, other, -, hsame, -⟩
      cases hanswer.symm.trans hsame
    unfold diffOf
    rw [outcome_recover_of_error (outcome_ask_of_error hanswer)]
    by_cases hgit : f.cause.isGit = true
    · rw [if_pos hgit, outcome_bind_of_ok (outcome_warn _ _)]
      refine ⟨.ok "", _, rfl, not_escapes_ok "", ?_⟩
      refine (hnone.trans (World.Passes.warned _ _)).congr (iff_of_false id ?_)
      rintro ⟨other, hsame, hother⟩
      obtain rfl := Except.ok.inj hsame
      exact not_unreadable_empty hother
    · rw [if_neg hgit]
      refine ⟨.error f.cause, _, rfl, ?_, hnone.congr (iff_of_false id nofun)⟩
      rw [escapes_error_iff, hw _ _ _ hanswer]
      exact Bool.noConfusion

/-- A modified file is told with its changes, unless its diff cannot be read. -/
theorem stopsAtDiffs_modified (f : String → List TokenChange → FileChange) :
    Run.StopsAtDiffs (do
      let diff ← diffOf hash file
      let changes ← Run.ofExcept (TokenChange.ofDiff diff lookahead)
      Pure.pure (f diff changes)) := by
  intro w hw
  obtain ⟨r, w', hdiff, hescapes, hpasses⟩ := exists_outcome_diffOf hw hash file
  have hw' : w'.git.FailsByCommand := by rwa [hpasses.git]
  cases r with
  | error e =>
    rw [outcome_bind_of_error hdiff]
    refine ⟨hw', hpasses.congr (iff_of_false nofun ?_)⟩
    rwa [escapes_error_iff] at hescapes ⊢
  | ok diff =>
    have hstopped : (∃ other, (.ok diff : Except Failure String) = .ok other ∧
        Unreadable other) ↔ Unreadable diff :=
      ⟨fun ⟨_, hsame, hother⟩ => Except.ok.inj hsame ▸ hother, fun h => ⟨diff, rfl, h⟩⟩
    rw [outcome_bind_of_ok hdiff]
    by_cases hread : Unreadable diff
    · obtain ⟨digits, hrefused⟩ := TokenChange.exists_ofDiff_eq_error hread lookahead
      rw [hrefused, outcome_bind_of_error (outcome_ofExcept _ w')]
      exact ⟨hw', hpasses.congr (iff_of_true (hstopped.mpr hread) (escapes_error_iff.mpr rfl))⟩
    · obtain ⟨changes, hchanges⟩ := TokenChange.exists_ofDiff_eq_ok hread lookahead
      rw [hchanges, outcome_bind_of_ok (outcome_ofExcept _ w')]
      exact ⟨hw', hpasses.congr (iff_of_false (mt hstopped.mp hread) (not_escapes_ok _))⟩

/-- Reading a change of a file is stopped by its diff alone. -/
theorem stopsAtDiffs_fileChange (lookahead : Int) (hash : String) (status : List Char)
    (path : String) : Run.StopsAtDiffs (fileChange lookahead hash status path) := by
  unfold fileChange
  cases FileChangeKind.ofStatus status with
  | modified =>
    exact stopsAtDiffs_modified fun diff changes => ⟨.modified, path, some diff, some changes⟩
  | added => exact StopsAtDiffs.pure _
  | deleted => exact StopsAtDiffs.pure _

end Diffs

/-- A search is stopped by diffs alone if its steps are. -/
theorem isInherited_stopsAtDiffs : IsInherited Run.StopsAtDiffs where
  value := StopsAtDiffs.pure
  bind := StopsAtDiffs.bind
  say _ _ := .say _
  asked f line a h := .asked h f line a
  fileChange := stopsAtDiffs_fileChange

/-- A detector that watches a path and can remember every commit. -/
structure IsUsable [Nesting.Room] (d : Detector) : Prop where
  path : ∃ path, d.path = .text path
  store : d.store.IsUsable

end Detector

/-- A detection that is stopped by diffs that cannot be read and by nothing else that a report does
not handle, as long as commands fail in their own way and the detector can be used. -/
abbrev Detection.StopsAtDiffs [Nesting.Room] {α : Type} (x : Detection α) : Prop :=
  DesignTokens.StopsAtDiffs Prod.snd (fun s => s.1.IsUsable ∧ s.2.git.FailsByCommand) x

namespace Detection.StopsAtDiffs

variable [Nesting.Room]

variable {α : Type} {d : Detector}

/-- A run inside a detection is stopped as it is on its own. -/
theorem ofRun {x : Run α} (h : Run.StopsAtDiffs x) : Detection.StopsAtDiffs (ofRun x) := by
  rintro ⟨d, w⟩ ⟨hd, hw⟩
  obtain ⟨hw', hpasses⟩ := h w hw
  exact ⟨⟨hd, hw'⟩, hpasses⟩

/-- A detection that begins with a look at the detector. -/
theorem read {f : Detector → Detection α} (h : ∀ d, d.IsUsable → Detection.StopsAtDiffs (f d)) :
    Detection.StopsAtDiffs (detector >>= f) := by
  rintro ⟨d, w⟩ ⟨hd, hw⟩
  rw [outcome_bind_of_ok outcome_detector]
  exact h d hd (d, w) ⟨hd, hw⟩

/-- A detector that is usable may take the place of another. -/
theorem put (h : d.IsUsable) : Detection.StopsAtDiffs (put d) :=
  fun _ hs => ⟨⟨h, hs.2⟩,
    (World.Passes.of_calls_eq rfl rfl).congr (iff_of_false id (not_escapes_ok ()))⟩

/-- A detection that begins with a commit put into a store. -/
theorem save {store : PointerStore} (hstore : store.IsUsable) (hash : String)
    {f : PointerStore → Detection α}
    (h : ∀ after, after.IsUsable → Detection.StopsAtDiffs (f after)) :
    Detection.StopsAtDiffs (Detection.ofRun (store.save hash) >>= f) := by
  rintro ⟨d, w⟩ ⟨hd, hw⟩
  obtain ⟨after, w', hsave, hafter, hgit, hcalls⟩ := hstore.save hash w
  rw [outcome_bind_of_ok (outcome_ofRun hsave)]
  obtain ⟨hkept, hpasses⟩ := h after hafter (d, w') ⟨hd, by rwa [hgit]⟩
  exact ⟨hkept, (World.Passes.of_calls_eq hgit hcalls).trans hpasses⟩

end Detection.StopsAtDiffs

namespace Detector

variable [Nesting.Room]

variable {d : Detector} {w : World}

/-- Moving the pointer is not stopped. -/
theorem stopsAtDiffs_advance (hash : String) : Detection.StopsAtDiffs (advance hash) := by
  unfold advance
  refine .read fun d hd => .save hd.store hash fun store hstore => ?_
  have hput : ∀ pointer, IsUsable { d with store := store, pointer := pointer } :=
    fun _ => ⟨hd.path, hstore⟩
  refine (Detection.StopsAtDiffs.put (hput _)).bind fun _ => ?_
  refine (Detection.StopsAtDiffs.put (hput _)).bind fun _ => ?_
  exact Detection.StopsAtDiffs.ofRun (.say _)

/-- A report up to a commit is stopped by diffs alone. -/
theorem stopsAtDiffs_reportUpTo (d : Detector) (latest : Option String) :
    Detection.StopsAtDiffs (d.reportUpTo latest) := by
  unfold reportUpTo
  cases latest with
  | none => exact (Detection.StopsAtDiffs.ofRun (.warn _)).bind fun _ => StopsAtDiffs.pure []
  | some latest =>
    have hfound := isInherited_stopsAtDiffs.commitsUpTo d latest
    refine (Detection.StopsAtDiffs.ofRun hfound).bind fun found => ?_
    split
    · exact StopsAtDiffs.pure found
    · exact (stopsAtDiffs_advance latest).bind fun _ => StopsAtDiffs.pure found

/-- A look for commits after the pointer is stopped by diffs alone. -/
theorem stopsAtDiffs_scanSinceLast : Detection.StopsAtDiffs scanSinceLast := by
  unfold scanSinceLast
  refine .read fun d hd => ?_
  obtain ⟨path, hpath⟩ := hd.path
  refine (Detection.StopsAtDiffs.ofRun (stopsAtDiffs_openRepository hpath)).bind fun opened => ?_
  cases opened with
  | false => exact StopsAtDiffs.pure []
  | true =>
    exact (Detection.StopsAtDiffs.ofRun isInherited_stopsAtDiffs.latestCommit).bind fun latest =>
      stopsAtDiffs_reportUpTo d latest

/-- A look for recent commits is stopped by diffs alone. -/
theorem stopsAtDiffs_scanRecent (span : Lookback) :
    Detection.StopsAtDiffs (scanRecent span) := by
  unfold scanRecent
  refine .read fun d hd => ?_
  obtain ⟨path, hpath⟩ := hd.path
  refine (Detection.StopsAtDiffs.ofRun (stopsAtDiffs_openRepository hpath)).bind fun opened => ?_
  cases opened with
  | false => exact StopsAtDiffs.pure []
  | true =>
    exact (Detection.StopsAtDiffs.ofRun (.say _)).bind fun _ =>
      Detection.StopsAtDiffs.ofRun (isInherited_stopsAtDiffs.commits d none _)

/-- A report is stopped by diffs that cannot be read, like what it is made of, and by nothing
else. -/
theorem stopsAtDiffs_reporting {body : Detection (List Commit)}
    (h : Detection.StopsAtDiffs body) (what : String) :
    Detection.StopsAtDiffs (reporting what body) ∧
      ∀ s e, (outcome (reporting what body) s).1 = .error e → e.isGitOrFile = false := by
  refine ⟨?_, fun s e he => ?_⟩
  · refine StopsAtDiffs.recover h (fun _ hfault => hfault) fun e => ?_
    exact (Detection.StopsAtDiffs.ofRun (.warn _)).bind fun _ => StopsAtDiffs.pure []
  · unfold reporting at he
    rcases hbody : outcome body s with ⟨cause | found, s'⟩
    · rw [outcome_recover_of_error hbody] at he
      by_cases hfault : cause.isGitOrFile = true
      · rw [if_pos hfault] at he
        cases he
      · rw [if_neg hfault] at he
        obtain rfl := Except.error.inj he
        exact Bool.not_eq_true _ ▸ hfault
    · rw [outcome_recover_of_ok hbody] at he
      cases he

/-- Every request is stopped by diffs alone, and fails by nothing that a report handles. -/
theorem stopsAtDiffs_detect (request : Request) :
    Detection.StopsAtDiffs request.detect ∧
      ∀ s e, (outcome request.detect s).1 = .error e → e.isGitOrFile = false := by
  cases request with
  | sinceLast => exact stopsAtDiffs_reporting stopsAtDiffs_scanSinceLast _
  | recent span => exact stopsAtDiffs_reporting (stopsAtDiffs_scanRecent span) _

end Detector

/-- A command that a turn issued asks for a diff, and this is the answer. -/
def Turn.IsAnswered (t : Turn) (diff : String) : Prop :=
  ∃ history hash file, t.world.calls <+: history ∧
    history ++ [.diffOf hash file] <+: t.left.calls ∧
    t.world.git.answer history (.diffOf hash file) = .ok diff

namespace Detector

variable {d : Detector} {w : World}

@[simp] theorem world_turn [Nesting.Room] (d : Detector) (request : Request) (w : World) :
    (d.turn request w).world = w := rfl

/-- The commands of a turn are those issued after the ones before it. -/
theorem answersUnreadable_iff {t : Turn} {calls : List GitCall}
    (h : t.left.calls = t.world.calls ++ calls) :
    t.world.git.AnswersUnreadable t.world.calls calls ↔
      ∃ diff, t.IsAnswered diff ∧ Unreadable diff := by
  constructor
  · rintro ⟨earlier, hash, file, later, diff, rfl, hanswer, hdiff⟩
    refine ⟨diff, ⟨_, hash, file, List.prefix_append _ earlier, ⟨later, ?_⟩, hanswer⟩, hdiff⟩
    rw [h]
    simp
  · rintro ⟨diff, ⟨_, hash, file, ⟨earlier, rfl⟩, ⟨later, hlater⟩, hanswer⟩, hdiff⟩
    refine ⟨earlier, hash, file, later, diff, ?_, hanswer, hdiff⟩
    rw [h] at hlater
    simpa using hlater.symm

/-- A detector that is asked, while commands fail in their own way, answers with a list of commits
exactly if no diff it is answered has a hunk with a number of too many digits; and these are the
diffs from which changes are read. -/
theorem exists_answer_turn_iff [Nesting.Room] (hd : d.IsUsable) (hw : w.git.FailsByCommand)
    (request : Request) :
    ((∃ found, (d.turn request w).answer = .ok found) ↔
      ∀ diff, (d.turn request w).IsAnswered diff →
        ∀ line ∈ Text.splitOn '\n' diff.toList, DiffLine.NumberFits line) ∧
    ∀ diff lookahead, (∃ changes, TokenChange.ofDiff diff lookahead = .ok changes) ↔
      ∀ line ∈ Text.splitOn '\n' diff.toList, DiffLine.NumberFits line := by
  constructor
  · obtain ⟨hstops, hfailure⟩ := stopsAtDiffs_detect request
    obtain ⟨-, hpasses⟩ := hstops (d, w) ⟨hd, hw⟩
    obtain ⟨calls, hcalls, hiff⟩ := hpasses.issued
    have hanswered := (@answersUnreadable_iff (d.turn request w) calls hcalls).symm.trans hiff
    have hescapes : Escapes (d.turn request w).answer ↔
        ¬∃ found, (d.turn request w).answer = .ok found := by
      cases hanswer : (d.turn request w).answer with
      | ok found => exact iff_of_false (not_escapes_ok found) (not_not_intro ⟨found, rfl⟩)
      | error e =>
        exact iff_of_true (escapes_error_iff.mpr (hfailure (d, w) e hanswer)) nofun
    have hnone := not_congr (hanswered.trans hescapes)
    rw [not_not] at hnone
    rw [← hnone]
    simp only [not_exists, not_and, not_unreadable_iff]
  · intro diff lookahead
    rw [← not_unreadable_iff]
    constructor
    · rintro ⟨changes, hchanges⟩ hread
      obtain ⟨digits, hrefused⟩ := TokenChange.exists_ofDiff_eq_error hread lookahead
      cases hchanges.symm.trans hrefused
    · exact fun h => TokenChange.exists_ofDiff_eq_ok h lookahead

end Detector

/-- A diff of one hunk, in which a color is replaced. -/
def redDiff : String := "@@ -1 +1 @@\n-$red: #f00;\n+$red: #e00;"

/-- A repository with one commit, which modifies a file of colors. -/
def redService : GitService where
  answer := fun _ call => match call with
    | .head => .ok "a1"
    | .log _ _ => .ok "a1|Ann|today|Darker red"
    | .filesOf _ => .ok "M\ttokens/colors.scss"
    | .diffOf _ _ => .ok redDiff
    | _ => .ok ""
  origin := fun _ => .ok ()
  cloned := fun _ _ => .ok []

/-- A world with that repository at its root. -/
def redWorld : World :=
  ⟨⟨[]⟩, "/", "/", [], none, none, default, 0, redService, false, [], [], []⟩

attribute [local instance] Nesting.Room.ample

/-- The commit is found, and the change in it is read. -/
theorem exists_answer_redWorld :
    Detector.IsUsable ⟨.text "/", .memory none, 24, 10, none⟩ ∧ redWorld.git.FailsByCommand ∧
      (∃ found, (Detector.turn ⟨.text "/", .memory none, 24, 10, none⟩ .sinceLast
        redWorld).answer = .ok found) ∧
      ∃ changes, TokenChange.ofDiff redDiff 10 = .ok changes := by
  have hd : Detector.IsUsable ⟨.text "/", .memory none, 24, 10, none⟩ := ⟨⟨"/", rfl⟩, trivial⟩
  have hw : redWorld.git.FailsByCommand := by
    intro history call f h
    cases call <;> cases h
  obtain ⟨hanswer, hchanges⟩ := Detector.exists_answer_turn_iff hd hw .sinceLast
  have hfits : ∀ line ∈ Text.splitOn '\n' redDiff.toList, DiffLine.NumberFits line := by decide
  refine ⟨hd, hw, hanswer.mpr ?_, (hchanges redDiff 10).mpr hfits⟩
  rintro diff ⟨history, hash, file, -, -, hdiff⟩
  rw [Detector.world_turn] at hdiff
  obtain rfl := Except.ok.inj hdiff
  exact hfits

/-- A header of a hunk with a number of ones in it. -/
def onesHeader (n : Nat) : List Char := DiffLine.hunkOpening ++ List.replicate n '1'

/-- The header with ones has as many digits as it has ones. -/
theorem hunkDigits?_onesHeader {n : Nat} (h : n ≠ 0) :
    DiffLine.hunkDigits? (onesHeader n) = some (List.replicate n '1') := by
  have hone : Text.isDigit '1' = true := by decide
  have hrun : (List.replicate n '1').takeWhile Text.isDigit = List.replicate n '1' := by
    rw [List.takeWhile_replicate, if_pos hone]
  unfold onesHeader
  rw [DiffLine.hunkDigits?_append, hrun,
    if_neg fun hnil => h ((List.replicate_eq_nil_iff '1').mp hnil)]

/-- A header with too many ones cannot be read. -/
theorem unreadable_onesHeader {n : Nat} (h : Text.Integer.digitLimit < n) :
    Unreadable (String.ofList (onesHeader n)) := by
  have hline : '\n' ∉ onesHeader n := by
    intro hmem
    rcases List.mem_append.mp hmem with hopening | hones
    · exact absurd hopening (by decide)
    · exact absurd (List.eq_of_mem_replicate hones) (by decide)
  refine ⟨onesHeader n, ?_, fun hfits => ?_⟩
  · rw [String.toList_ofList, Text.splitOn_of_notMem hline]
    exact List.mem_cons_self
  · have hlength := hfits _ (hunkDigits?_onesHeader (Nat.ne_zero_of_lt h))
    rw [List.length_replicate] at hlength
    exact absurd h (Nat.not_lt.mpr hlength)

/-- Changes are not read from every text: a header with too many digits stops the reading. -/
theorem not_forall_exists_ofDiff :
    ¬∀ diff lookahead, ∃ changes, TokenChange.ofDiff diff lookahead = .ok changes := by
  intro hreads
  have hunreadable := unreadable_onesHeader (Nat.lt_succ_self Text.Integer.digitLimit)
  obtain ⟨digits, hrefused⟩ := TokenChange.exists_ofDiff_eq_error hunreadable 10
  obtain ⟨changes, hchanges⟩ := hreads _ 10
  cases hchanges.symm.trans hrefused

end DesignTokens
