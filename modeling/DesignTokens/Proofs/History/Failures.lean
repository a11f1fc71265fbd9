import DesignTokens.Proofs.Diff.Line
import DesignTokens.Proofs.Files.Possible
import DesignTokens.Proofs.History.Turn

/-!
# What stops a report

A failed command or a refused operation on a file is told in a warning, and the report goes on
without it or is empty. One thing goes through: a diff in which the number of a hunk has more digits
than a number may have. So a report fails exactly when it is answered such a diff.
-/

namespace DesignTokens

variable {α β : Type}

/-- A diff with a line that cannot be read. -/
def Unreadable (diff : String) : Prop :=
  ∃ line ∈ Text.splitOn '\n' diff.toList, ¬DiffLine.NumberFits line

/-- A diff can be read if all its lines can. -/
theorem not_unreadable_iff {diff : String} :
    ¬Unreadable diff ↔ ∀ line ∈ Text.splitOn '\n' diff.toList, DiffLine.NumberFits line := by
  simp [Unreadable]

/-- What stops the reading of lines is a number with too many digits. -/
theorem DiffLine.eq_tooManyDigits_of_mapM_read {lines : List (List Char)} {e : Failure}
    (h : lines.mapM read = .error e) : ∃ digits, e = .value (.tooManyDigits digits) := by
  induction lines with
  | nil => cases h
  | cons line lines ih =>
    rw [List.mapM_cons] at h
    cases hline : read line with
    | error e' =>
      rw [hline] at h
      cases h
      cases hdigits : hunkDigits? line with
      | none =>
        rw [read_of_hunkDigits?_eq_none hdigits] at hline
        cases hline
      | some digits =>
        rw [read_of_hunkDigits? hdigits] at hline
        split at hline
        · exact ⟨_, (Except.error.inj hline).symm⟩
        · cases hline
    | ok l =>
      rw [hline] at h
      cases hrest : lines.mapM read with
      | error e' =>
        rw [hrest] at h
        cases h
        exact ih hrest
      | ok ls =>
        rw [hrest] at h
        cases h

namespace TokenChange

/-- A diff that can be read has changes. -/
theorem exists_ofDiff_eq_ok {diff : String} (h : ¬Unreadable diff) (lookahead : Int) :
    ∃ changes, ofDiff diff lookahead = .ok changes := by
  obtain ⟨ls, hls, -⟩ := DiffLine.exists_mapM_read (not_unreadable_iff.mp h)
  exact ⟨_, by rw [ofDiff_eq, hls]; rfl⟩

/-- A diff that cannot be read is refused for the number of a hunk. -/
theorem exists_ofDiff_eq_error {diff : String} (h : Unreadable diff) (lookahead : Int) :
    ∃ digits, ofDiff diff lookahead = .error (.value (.tooManyDigits digits)) := by
  obtain ⟨line, hline, hnumber⟩ := h
  obtain ⟨e, he⟩ := DiffLine.exists_mapM_read_eq_error hline hnumber
  obtain ⟨digits, rfl⟩ := DiffLine.eq_tooManyDigits_of_mapM_read he
  exact ⟨digits, by rw [ofDiff_eq, he]; rfl⟩

end TokenChange

/-- A result that a report does not turn into an empty one: a failure other than that of a command
or of an operation on a file. -/
def Escapes (r : Except Failure α) : Prop := ∃ e, r = .error e ∧ e.isGitOrFile = false

/-- No answer is a failure that escapes. -/
theorem not_escapes_ok (a : α) : ¬Escapes (.ok a : Except Failure α) :=
  fun ⟨_, h, _⟩ => nomatch h

/-- A failure escapes unless it is that of a command or of an operation on a file. -/
theorem escapes_error_iff {e : Failure} :
    Escapes (.error e : Except Failure α) ↔ e.isGitOrFile = false :=
  ⟨fun ⟨_, h, hfault⟩ => Except.error.inj h ▸ hfault, fun h => ⟨e, rfl, h⟩⟩

/-- A failure of the version control system itself is one of a command. -/
theorem Failure.isGitOrFile_of_isGit {e : Failure} (h : e.isGit = true) : e.isGitOrFile = true := by
  cases e with
  | git fault text => exact Bool.or_eq_true_iff.mpr (.inl h)
  | _ => cases h

namespace GitService

variable {g : GitService} {before : List GitCall}

/-- Every failure is one of a command or of an operation on a file. -/
def FailsByCommand (g : GitService) : Prop :=
  ∀ history call f, g.answer history call = .error f → f.cause.isGitOrFile = true

/-- One of the commands issued after others asks for a diff, and the answer cannot be read. -/
def AnswersUnreadable (g : GitService) (before issued : List GitCall) : Prop :=
  ∃ earlier hash file later diff, issued = earlier ++ .diffOf hash file :: later ∧
    g.answer (before ++ earlier) (.diffOf hash file) = .ok diff ∧ Unreadable diff

/-- Where no command is issued, no diff is answered. -/
theorem not_answersUnreadable_nil : ¬g.AnswersUnreadable before [] := by
  rintro ⟨earlier, hash, file, later, diff, hissued, -⟩
  simp at hissued

/-- A diff that cannot be read is answered to one of the earlier or of the later commands. -/
theorem answersUnreadable_append {first second : List GitCall} :
    g.AnswersUnreadable before (first ++ second) ↔
      g.AnswersUnreadable before first ∨ g.AnswersUnreadable (before ++ first) second := by
  constructor
  · rintro ⟨earlier, hash, file, later, diff, hissued, hanswer⟩
    rcases List.append_eq_append_iff.mp hissued with ⟨more, rfl, rfl⟩ | ⟨more, rfl, hlater⟩
    · rw [← List.append_assoc] at hanswer
      exact .inr ⟨more, hash, file, later, diff, rfl, hanswer⟩
    · cases more with
      | nil =>
        rw [List.append_nil]
        exact .inr ⟨[], hash, file, later, diff, hlater.symm, by rwa [List.append_nil]⟩
      | cons call more =>
        obtain ⟨rfl, -⟩ := List.cons.inj hlater
        exact .inl ⟨earlier, hash, file, more, diff, rfl, hanswer⟩
  · rintro (⟨earlier, hash, file, later, diff, rfl, hanswer⟩ |
      ⟨earlier, hash, file, later, diff, rfl, hanswer⟩)
    · exact ⟨earlier, hash, file, later ++ second, diff, by simp, hanswer⟩
    · rw [List.append_assoc] at hanswer
      exact ⟨first ++ earlier, hash, file, later, diff, by simp, hanswer⟩

/-- One command is answered such a diff if it asks for one. -/
theorem answersUnreadable_singleton {call : GitCall} :
    g.AnswersUnreadable before [call] ↔
      ∃ hash file diff, call = .diffOf hash file ∧ g.answer before call = .ok diff ∧
        Unreadable diff := by
  constructor
  · rintro ⟨earlier, hash, file, later, diff, hissued, hanswer, hdiff⟩
    cases earlier with
    | nil =>
      obtain ⟨rfl, -⟩ := List.cons.inj hissued
      rw [List.append_nil] at hanswer
      exact ⟨hash, file, diff, rfl, hanswer, hdiff⟩
    | cons first earlier => simp at hissued
  · rintro ⟨hash, file, diff, rfl, hanswer, hdiff⟩
    exact ⟨[], hash, file, [], diff, rfl, by rwa [List.append_nil], hdiff⟩

end GitService

namespace World

variable {w w₁ w₂ : World} {p q : Prop}

/-- The way from one world to another issues commands and leaves the version control system as it
is; one of the commands is answered a diff that cannot be read exactly if `stopped` holds. -/
structure Passes (w w' : World) (stopped : Prop) : Prop where
  git : w'.git = w.git
  issued : ∃ calls, w'.calls = w.calls ++ calls ∧
    (w.git.AnswersUnreadable w.calls calls ↔ stopped)

namespace Passes

/-- The condition may be stated differently. -/
theorem congr (h : Passes w w₁ p) (hpq : p ↔ q) : Passes w w₁ q := by
  obtain ⟨calls, hcalls, hiff⟩ := h.issued
  exact ⟨h.git, calls, hcalls, hiff.trans hpq⟩

/-- Commands with nothing amiss may come before others. -/
theorem trans (h : Passes w w₁ False) (h' : Passes w₁ w₂ p) : Passes w w₂ p := by
  obtain ⟨first, hfirst, hnone⟩ := h.issued
  obtain ⟨second, hsecond, hiff⟩ := h'.issued
  refine ⟨h'.git.trans h.git, first ++ second, ?_, ?_⟩
  · rw [hsecond, hfirst, List.append_assoc]
  · rw [GitService.answersUnreadable_append, hnone, false_or, ← hfirst, ← h.git]
    exact hiff

/-- Nothing is issued on the way. -/
theorem of_calls_eq (hgit : w₁.git = w.git) (hcalls : w₁.calls = w.calls) :
    Passes w w₁ False := by
  refine ⟨hgit, [], by rw [hcalls, List.append_nil], ?_⟩
  exact iff_false_intro GitService.not_answersUnreadable_nil

/-- A line about progress issues no command. -/
theorem said (w : World) (line : String) : Passes w (w.said line) False := by
  unfold World.said
  split
  · exact of_calls_eq rfl rfl
  · exact of_calls_eq rfl rfl

/-- A warning issues no command. -/
theorem warned (w : World) (line : String) : Passes w (w.warned line) False :=
  of_calls_eq rfl rfl

/-- A single command is issued on the way. -/
theorem issue (w : World) (call : GitCall) :
    Passes w (w.issued call) (∃ hash file diff, call = .diffOf hash file ∧
      w.git.answer w.calls call = .ok diff ∧ Unreadable diff) :=
  ⟨rfl, [call], rfl, GitService.answersUnreadable_singleton⟩

end Passes

end World

section Stops

variable {σ : Type} {view : σ → World} {keeps : σ → Prop} {x : RunOn σ α}

/-- From every state that is kept, the computation leads to one; it passes on a failure that a
report does not handle exactly if it is answered a diff that cannot be read. -/
def StopsAtDiffs (view : σ → World) (keeps : σ → Prop) (x : RunOn σ α) : Prop :=
  ∀ s, keeps s → keeps (outcome x s).2 ∧
    (view s).Passes (view (outcome x s).2) (Escapes (outcome x s).1)

namespace StopsAtDiffs

/-- A value does not stop a computation. -/
theorem pure (a : α) : StopsAtDiffs view keeps (pure a) :=
  fun _ hs => ⟨hs, (World.Passes.of_calls_eq rfl rfl).congr (iff_of_false id (not_escapes_ok a))⟩

/-- Two parts that are stopped by nothing else are so one after the other. -/
theorem bind {f : α → RunOn σ β} (hx : StopsAtDiffs view keeps x)
    (hf : ∀ a, StopsAtDiffs view keeps (f a)) : StopsAtDiffs view keeps (x >>= f) := by
  intro s hs
  obtain ⟨hkept, hpasses⟩ := hx s hs
  rcases h : outcome x s with ⟨e | a, s₁⟩
  · rw [h] at hkept hpasses
    rw [outcome_bind_of_error h]
    refine ⟨hkept, hpasses.congr ?_⟩
    rw [escapes_error_iff, escapes_error_iff]
  · rw [h] at hkept hpasses
    rw [outcome_bind_of_ok h]
    obtain ⟨hkept', hpasses'⟩ := hf a s₁ hkept
    exact ⟨hkept', (hpasses.congr (iff_false_intro (not_escapes_ok a))).trans hpasses'⟩

/-- Failures of commands and of operations on files may be handled. -/
theorem recover {fault : Failure → Bool} {handle : Failure → RunOn σ α}
    (hx : StopsAtDiffs view keeps x) (hfault : ∀ e, fault e = true → e.isGitOrFile = true)
    (hhandle : ∀ e, StopsAtDiffs view keeps (handle e)) :
    StopsAtDiffs view keeps (Run.recover fault x handle) := by
  intro s hs
  obtain ⟨hkept, hpasses⟩ := hx s hs
  rcases h : outcome x s with ⟨e | a, s₁⟩
  · rw [h] at hkept hpasses
    rw [outcome_recover_of_error h]
    by_cases he : fault e = true
    · rw [if_pos he]
      have hhandled : ¬Escapes (.error e : Except Failure α) := by
        rw [escapes_error_iff, hfault e he]
        exact Bool.noConfusion
      obtain ⟨hkept', hpasses'⟩ := hhandle e s₁ hkept
      exact ⟨hkept', (hpasses.congr (iff_false_intro hhandled)).trans hpasses'⟩
    · rw [if_neg he]
      exact ⟨hkept, hpasses⟩
  · rw [h] at hkept hpasses
    rw [outcome_recover_of_ok h]
    exact ⟨hkept, hpasses⟩

end StopsAtDiffs

end Stops

/-- A run that is stopped by diffs that cannot be read and by nothing else that a report does not
handle, as long as commands fail in their own way. -/
abbrev Run.StopsAtDiffs (x : Run α) : Prop :=
  DesignTokens.StopsAtDiffs id (fun w => w.git.FailsByCommand) x

namespace Run.StopsAtDiffs

open DesignTokens.StopsAtDiffs

/-- A line about progress does not stop a run. -/
theorem say (line : String) : Run.StopsAtDiffs (Run.say line) := by
  intro w hw
  have hpasses := World.Passes.said w line
  have hgit : (w.said line).git.FailsByCommand := by rwa [hpasses.git]
  rw [outcome_say]
  exact ⟨hgit, hpasses.congr (iff_of_false id (not_escapes_ok ()))⟩

/-- A warning does not stop a run. -/
theorem warn (line : String) : Run.StopsAtDiffs (Run.warn line) := by
  intro w hw
  rw [outcome_warn]
  exact ⟨hw, (World.Passes.warned w line).congr (iff_of_false id (not_escapes_ok ()))⟩

/-- A run that begins with a look at the world. -/
theorem read {f : World → Run α} (h : ∀ w, Run.StopsAtDiffs (f w)) :
    Run.StopsAtDiffs (get >>= f) := by
  intro w hw
  rw [outcome_bind_of_ok (outcome_get w)]
  exact h w w hw

/-- A command that asks for no diff. -/
theorem ask {call : GitCall} (h : ∀ hash file, call ≠ .diffOf hash file) :
    Run.StopsAtDiffs (Run.ask call) := by
  intro w hw
  have hpasses := World.Passes.issue w call
  have hnone : ¬∃ hash file diff, call = .diffOf hash file ∧
      w.git.answer w.calls call = .ok diff ∧ Unreadable diff := by
    rintro ⟨hash, file, diff, hcall, -⟩
    exact h hash file hcall
  cases hanswer : w.git.answer w.calls call with
  | ok text =>
    rw [outcome_ask_of_ok hanswer]
    exact ⟨hw, hpasses.congr (iff_of_false hnone (not_escapes_ok text))⟩
  | error f =>
    rw [outcome_ask_of_error hanswer]
    refine ⟨hw, hpasses.congr (iff_of_false hnone ?_)⟩
    rw [escapes_error_iff, hw _ _ _ hanswer]
    exact Bool.noConfusion

/-- A command whose answer is not looked at. -/
theorem discard {x : Run α} (h : Run.StopsAtDiffs x) : Run.StopsAtDiffs (discard x) := by
  have hbind : Functor.discard x = x >>= fun _ => Pure.pure () := (bind_pure_comp _ x).symm
  rw [hbind]
  exact h.bind fun _ => pure ()

end Run.StopsAtDiffs

namespace Run

/-- The run issues no command, and fails only by an operation on a file. -/
def WorksOnFiles (x : Run α) : Prop :=
  ∀ w, (outcome x w).2.git = w.git ∧ (outcome x w).2.calls = w.calls ∧
    ∀ e, (outcome x w).1 = .error e → PointerStore.isFile e = true

namespace WorksOnFiles

variable {x : Run α}

/-- A value issues no command and does not fail. -/
theorem pure (a : α) : WorksOnFiles (pure a) := fun _ => ⟨rfl, rfl, fun _ h => nomatch h⟩

/-- A failure of an operation on a file is of the kind that is allowed. -/
theorem throw (e : FileError) : WorksOnFiles (throw (.file e) : Run α) :=
  fun _ => ⟨rfl, rfl, fun _ h => Except.error.inj h ▸ rfl⟩

/-- Two parts that work on files alone do so one after the other. -/
theorem bind {f : α → Run β} (hx : WorksOnFiles x) (hf : ∀ a, WorksOnFiles (f a)) :
    WorksOnFiles (x >>= f) := by
  intro w
  obtain ⟨hgit, hcalls, hfault⟩ := hx w
  rcases h : outcome x w with ⟨e | a, w₁⟩
  · rw [h] at hgit hcalls hfault
    rw [outcome_bind_of_error h]
    exact ⟨hgit, hcalls, fun e' he' => hfault e' (congrArg Except.error (Except.error.inj he'))⟩
  · rw [h] at hgit hcalls
    rw [outcome_bind_of_ok h]
    obtain ⟨hgit', hcalls', hfault'⟩ := hf a w₁
    exact ⟨hgit'.trans hgit, hcalls'.trans hcalls, hfault'⟩

/-- A try works on files alone if both its parts do. -/
theorem recover {fault : Failure → Bool} {handle : Failure → Run α} (hx : WorksOnFiles x)
    (hhandle : ∀ e, WorksOnFiles (handle e)) : WorksOnFiles (Run.recover fault x handle) := by
  intro w
  obtain ⟨hgit, hcalls, hfault⟩ := hx w
  rcases h : outcome x w with ⟨e | a, w₁⟩
  · rw [h] at hgit hcalls hfault
    rw [outcome_recover_of_error h]
    by_cases he : fault e = true
    · rw [if_pos he]
      obtain ⟨hgit', hcalls', hfault'⟩ := hhandle e w₁
      exact ⟨hgit'.trans hgit, hcalls'.trans hcalls, hfault'⟩
    · rw [if_neg he]
      exact ⟨hgit, hcalls, hfault⟩
  · rw [h] at hgit hcalls hfault
    rw [outcome_recover_of_ok h]
    exact ⟨hgit, hcalls, hfault⟩

/-- With a warning for every operation that fails, the run does not fail. -/
theorem exists_recover_warn {x : Run Unit} (h : WorksOnFiles x) (line : Failure → String)
    (w : World) :
    ∃ w', outcome (Run.recover PointerStore.isFile x fun e => Run.warn (line e)) w = (.ok (), w') ∧
      w'.git = w.git ∧ w'.calls = w.calls := by
  obtain ⟨hgit, hcalls, hfault⟩ := h w
  rcases hx : outcome x w with ⟨e | _, w₁⟩
  · rw [hx] at hgit hcalls hfault
    rw [outcome_recover_of_error hx, if_pos (hfault e rfl)]
    exact ⟨w₁.warned (line e), rfl, hgit, hcalls⟩
  · rw [hx] at hgit hcalls
    exact ⟨w₁, outcome_recover_of_ok hx _ _, hgit, hcalls⟩

end WorksOnFiles

end Run

namespace Run

variable {path : String}

/-- A possible path is not refused. -/
theorem worksOnFiles_requirePath (h : PathText.IsPossible path) :
    WorksOnFiles (requirePath path) := by
  rw [requirePath_eq_pure h]
  exact WorksOnFiles.pure ()

/-- Writing to a possible path is an operation on a file. -/
theorem worksOnFiles_writeText (h : PathText.IsPossible path) (text : String) :
    WorksOnFiles (writeText path text) := by
  refine (worksOnFiles_requirePath h).bind fun _ w => ?_
  rw [outcome_bind_of_ok (outcome_get w)]
  cases w.files.write w.directory path (Text.Utf8.encode text.toList) with
  | error e => exact WorksOnFiles.throw e w
  | ok files => exact ⟨rfl, rfl, fun _ he => nomatch he⟩

/-- Making a directory at a possible path is an operation on a file. -/
theorem worksOnFiles_makeDirectory (h : PathText.IsPossible path) (existing : Bool) :
    WorksOnFiles (makeDirectory path existing) := by
  refine (worksOnFiles_requirePath h).bind fun _ w => ?_
  rw [outcome_bind_of_ok (outcome_get w)]
  cases w.files.makeDirectory w.directory path with
  | ok files => exact ⟨rfl, rfl, fun _ he => nomatch he⟩
  | error e =>
    simp only
    split
    · exact WorksOnFiles.pure () w
    · exact WorksOnFiles.throw e w

end Run

namespace PointerStore

variable {path : String}

/-- The store can take every hash: it is in memory, or in a file whose path is possible and has
fewer directories in it than are followed. -/
def IsUsable [Nesting.Room] : PointerStore → Prop
  | .memory _ => True
  | .file path =>
    PathText.IsPossible path ∧
      (PathText.plainSegments path).dropLast.length < Nesting.Site.pointer.limit
  | .abstract | .nowhere _ => False

/-- A path below a possible one is possible if its names are. -/
theorem isPossible_pathOf {root : String} {reversed : List String}
    (hroot : PathText.IsPossible root) (h : ∀ s ∈ reversed, PathText.IsPossible s) :
    PathText.IsPossible (pathOf root reversed) := by
  unfold pathOf
  split
  · decide
  · exact PathText.isPossible_append_string hroot
      (PathText.isPossible_join fun s hs => h s (List.mem_reverse.mp hs))

/-- The directories above a file are made without another failure than that of an operation on
them, if there are not too many. -/
theorem worksOnFiles_makeAbove {root : String} {levels : Nat} {reversed : List String}
    (hlevels : reversed.length < levels) (hroot : PathText.IsPossible root)
    (h : ∀ s ∈ reversed, PathText.IsPossible s) :
    (makeAbove root levels reversed).WorksOnFiles := by
  induction levels generalizing reversed with
  | zero => exact absurd hlevels (Nat.not_lt_zero _)
  | succ levels ih =>
    cases reversed with
    | nil => exact Run.worksOnFiles_makeDirectory (isPossible_pathOf hroot h) true
    | cons name above =>
      have hmake := Run.worksOnFiles_makeDirectory (isPossible_pathOf hroot h) true
      refine hmake.recover fun _ => Run.WorksOnFiles.bind ?_ fun _ => hmake
      exact ih (Nat.lt_of_succ_lt_succ hlevels) fun s hs => h s (List.mem_cons_of_mem name hs)

/-- A usable store takes a hash or warns, and stays usable. -/
theorem IsUsable.save [Nesting.Room] {store : PointerStore} (h : store.IsUsable) (hash : String)
    (w : World) :
    ∃ after w', outcome (store.save hash) w = (.ok after, w') ∧ after.IsUsable ∧
      w'.git = w.git ∧ w'.calls = w.calls := by
  cases store with
  | abstract => exact h.elim
  | nowhere halves => exact h.elim
  | memory held => exact ⟨.memory (some hash), w, rfl, trivial, rfl, rfl⟩
  | file path =>
    obtain ⟨hpath, hlevels⟩ := h
    have hshort : (PathText.plainSegments path).dropLast.reverse.length <
        Nesting.Site.pointer.limit := by
      rwa [List.length_reverse]
    have habove : ∀ s ∈ (PathText.plainSegments path).dropLast.reverse, PathText.IsPossible s :=
      fun s hs => PathText.isPossible_of_mem_segments hpath s
        (List.mem_filter.mp (List.dropLast_subset _ (List.mem_reverse.mp hs))).1
    have hworks : (saveTo path hash).WorksOnFiles :=
      (worksOnFiles_makeAbove hshort (PathText.isPossible_root path) habove).bind fun _ =>
        Run.worksOnFiles_writeText hpath hash
    obtain ⟨w', hsaved, hgit, hcalls⟩ := hworks.exists_recover_warn (fun e =>
      Terminal.paint Terminal.red
        ("✖ Error saving last processed commit to " ++ path ++ ": " ++ e.message)) w
    exact ⟨.file path, w', outcome_bind_of_ok hsaved _, ⟨hpath, hlevels⟩, hgit, hcalls⟩

end PointerStore

end DesignTokens
