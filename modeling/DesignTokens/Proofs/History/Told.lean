import DesignTokens.Proofs.History.Chain
import DesignTokens.Proofs.History.Failures
import DesignTokens.Proofs.Lists

/-!
# What is told while commands fail

The commands for what a commit touches and changes may fail at times. Between two worlds it is told
as far as they are answered: no file if the one for the files fails, and an empty change of a
modified file if the one for its diff fails. The rules here follow the runs of a report from command
to command; such a run ends with an answer, or it is stopped by a diff that cannot be read.
-/

namespace DesignTokens

variable {α β : Type}

namespace World

variable {w w' w₁ w₂ : World}

/-- One world comes before another: commands have been issued and lines printed in between, and
nothing else. -/
structure Precedes (w w' : World) : Prop where
  base : w'.base = w.base
  calls : w.calls <+: w'.calls

namespace Precedes

/-- A world precedes itself. -/
theorem refl (w : World) : w.Precedes w := ⟨rfl, List.prefix_rfl⟩

/-- What precedes a world precedes those after it. -/
theorem trans (h : w.Precedes w₁) (h' : w₁.Precedes w₂) : w.Precedes w₂ :=
  ⟨h'.base.trans h.base, h.calls.trans h'.calls⟩

/-- Between a world and a later one the version control system is the same. -/
theorem git (h : w.Precedes w') : w'.git = w.git := git_of_base h.base

/-- A world precedes the one after a line about progress. -/
theorem said (w : World) (line : String) : w.Precedes (w.said line) :=
  ⟨w.base_said line, by simp⟩

/-- A world precedes the one after a warning. -/
theorem warned (w : World) (line : String) : w.Precedes (w.warned line) := ⟨rfl, List.prefix_rfl⟩

/-- A world precedes the one after a command. -/
theorem issued (w : World) (call : GitCall) : w.Precedes (w.issued call) :=
  ⟨rfl, List.prefix_append _ _⟩

end Precedes

/-- Between two worlds a command is issued, and this is what comes of it. -/
def Asked (w w' : World) (call : GitCall) (r : Except GitFailure String) : Prop :=
  ∃ history, w.calls <+: history ∧ history ++ [call] <+: w'.calls ∧ w.git.answer history call = r

/-- What was asked by then has been asked later as well. -/
theorem Asked.mono {call : GitCall} {r : Except GitFailure String} (h : w.Asked w₁ call r)
    (hcalls : w₁.calls <+: w₂.calls) : w.Asked w₂ call r := by
  obtain ⟨history, hbefore, hissued, hanswer⟩ := h
  exact ⟨history, hbefore, hissued.trans hcalls, hanswer⟩

/-- A command that is issued now has been issued since the worlds before. -/
theorem Precedes.asked (h : w.Precedes w₁) (call : GitCall) :
    w.Asked (w₁.issued call) call (w₁.git.answer w₁.calls call) :=
  ⟨w₁.calls, h.calls, List.prefix_rfl, by rw [h.git]⟩

/-- Between two worlds a diff is told that cannot be read. -/
def MeetsUnreadable (w w' : World) : Prop :=
  ∃ hash file diff, w.Asked w' (.diffOf hash file) (.ok diff) ∧ Unreadable diff

/-- Between two worlds a command fails for what a commit touches or changes. -/
def Misses (w w' : World) (hash : String) : Prop :=
  ∃ f, w.Asked w' (.filesOf hash) (.error f) ∨ ∃ file, w.Asked w' (.diffOf hash file) (.error f)

end World

/-- The command is answered with one text whenever it is answered, and otherwise fails by itself. -/
def GitService.TellsAtTimes (g : GitService) (call : GitCall) (text : String) : Prop :=
  ∀ history, g.answer history call = .ok text ∨
    ∃ f, g.answer history call = .error f ∧ f.cause.isGit = true

/-- How a run from a world ends that only issues commands and prints: with an answer that has a
property in the world it leaves, or with a cause that a report does not handle, after a diff that
cannot be read has been told since the first world. -/
inductive Reads (first w : World) (x : Run α) (p : World → α → Prop) : Prop
  | answered {a : α} {w' : World} (h : outcome x w = (.ok a, w')) (hlater : w.Precedes w')
    (ha : p w' a)
  | stopped {e : Failure} {w' : World} (h : outcome x w = (.error e, w')) (hlater : w.Precedes w')
    (he : e.isGitOrFile = false) (hdiff : first.MeetsUnreadable w')

namespace Reads

variable {first w : World} {x : Run α} {p : World → α → Prop}

/-- A value with the property is read without a command. -/
theorem pure {a : α} (h : p w a) : Reads first w (pure a) p := .answered rfl (.refl w) h

/-- Showing progress reads nothing. -/
theorem say (line : String) : Reads first w (Run.say line) fun _ _ => True :=
  .answered (outcome_say line w) (.said w line) trivial

/-- The property may be weakened, also by what is known of the worlds. -/
theorem imp {q : World → α → Prop} (h : Reads first w x p)
    (hpq : ∀ w' a, w.Precedes w' → p w' a → q w' a) : Reads first w x q := by
  cases h with
  | answered h hlater ha => exact .answered h hlater (hpq _ _ hlater ha)
  | stopped h hlater he hdiff => exact .stopped h hlater he hdiff

/-- A run that comes to what another comes to from a later world. -/
theorem of_outcome {y : Run α} {w₁ : World} (h : Reads first w₁ y p) (hlater : w.Precedes w₁)
    (hsame : outcome x w = outcome y w₁) : Reads first w x p := by
  cases h with
  | answered h hw' ha => exact .answered (hsame.trans h) (hlater.trans hw') ha
  | stopped h hw' he hdiff => exact .stopped (hsame.trans h) (hlater.trans hw') he hdiff

/-- Two parts read what they read one after the other. -/
theorem bind {f : α → Run β} {q : World → β → Prop} (h : Reads first w x p)
    (hf : ∀ a w₁, w.Precedes w₁ → p w₁ a → Reads first w₁ (f a) q) :
    Reads first w (x >>= f) q := by
  cases h with
  | answered h hlater ha => exact (hf _ _ hlater ha).of_outcome hlater (outcome_bind_of_ok h f)
  | stopped h hlater he hdiff => exact .stopped (outcome_bind_of_error h f) hlater he hdiff

/-- A run for each item of a list; what is told of one stays told while the others are read. -/
theorem mapM {f : α → Run β} {r : World → α → β → Prop} {items : List α}
    (hmono : ∀ {w₁ w₂ a b}, w₁.calls <+: w₂.calls → r w₁ a b → r w₂ a b)
    (h : ∀ a ∈ items, ∀ w₁, w.Precedes w₁ → Reads first w₁ (f a) (r · a)) :
    Reads first w (items.mapM f) fun w' answers => List.Forall₂ (r w') items answers := by
  induction items generalizing w with
  | nil => exact pure .nil
  | cons a items ih =>
    rw [List.mapM_cons]
    apply (h a List.mem_cons_self w (.refl w)).bind
    intro b w₁ hw₁ hb
    have hrest : ∀ c ∈ items, ∀ w₂, w₁.Precedes w₂ → Reads first w₂ (f c) (r · c) :=
      fun c hc w₂ hw₂ => h c (List.mem_cons_of_mem a hc) w₂ (hw₁.trans hw₂)
    apply (ih hrest).bind
    intro answers w₂ hw₂ hanswers
    exact pure (.cons (hmono hw₂.calls hb) hanswers)

/-- A command that may fail, with a value in place of its answer and a warning where it does. -/
theorem ask {call : GitCall} {text : String} {f : String → α} {line : Failure → String} {a : α}
    (htold : w.git.TellsAtTimes call text) (hfirst : first.Precedes w) :
    Reads first w (Run.recover Failure.isGit (do return f (← Run.ask call)) fun e => do
      Run.warn (line e)
      Pure.pure a) fun w' b =>
        first.Asked w' call (.ok text) ∧ b = f text ∨
          (∃ e, first.Asked w' call (.error e)) ∧ b = a := by
  have hissued := World.Precedes.issued w call
  have hasked := hfirst.asked call
  rcases htold w.calls with hanswer | ⟨e, hanswer, hgit⟩
  · rw [hanswer] at hasked
    have hask : outcome (do return f (← Run.ask call)) w = (.ok (f text), w.issued call) :=
      outcome_bind_of_ok (outcome_ask_of_ok hanswer) _
    exact .answered (outcome_recover_of_ok hask _ _) hissued (.inl ⟨hasked, rfl⟩)
  · rw [hanswer] at hasked
    have hask : outcome (do return f (← Run.ask call)) w = (.error e.cause, w.issued call) :=
      outcome_bind_of_error (outcome_ask_of_error hanswer) _
    refine .answered (a := a) ?_ (hissued.trans (.warned _ (line e.cause)))
      (.inr ⟨⟨e, hasked⟩, rfl⟩)
    rw [outcome_recover_of_error hask, if_pos hgit, outcome_bind_of_ok (outcome_warn _ _)]
    rfl

end Reads

/-- What a commit holds: the lines about the files it touches, and what it changes in a file. -/
structure Contents where
  files : String
  diff : String → String

namespace Contents

/-- The token files that a commit touches, each with its status. -/
def touched (k : Contents) : List (List Char × String) :=
  (Text.splitLines (Text.trim k.files.toList)).filterMap Detector.touched?

/-- The whole change of a file. -/
def change (k : Contents) (lookahead : Int) (t : List Char × String) :
    Except Failure FileChange :=
  match FileChangeKind.ofStatus t.1 with
  | .modified => do
    let changes ← TokenChange.ofDiff (k.diff t.2) lookahead
    return ⟨.modified, t.2, some (k.diff t.2), some changes⟩
  | kind => return ⟨kind, t.2, none, none⟩

/-- All changes of a commit. -/
def changes (k : Contents) (lookahead : Int) : Except Failure (List FileChange) :=
  k.touched.mapM (k.change lookahead)

end Contents

/-- The change of a modified file whose diff is not told. -/
def FileChange.untold (path : String) : FileChange := ⟨.modified, path, some "", some []⟩

/-- The version control system tells what a commit holds, or fails by itself at times. -/
structure GitService.TellsCommit (g : GitService) (hash : String) (k : Contents) : Prop where
  files : g.TellsAtTimes (.filesOf hash) k.files
  diff : ∀ file, g.TellsAtTimes (.diffOf hash file) (k.diff file)

namespace World

variable {w w' w₁ w₂ : World} {k : Contents} {hash : String} {lookahead : Int}

/-- What is told of a file that a commit touches between two worlds: the whole change, or an untold
one if the command for the diff of a modified file fails. -/
inductive TellsFile (w w' : World) (k : Contents) (hash : String) (lookahead : Int)
    (t : List Char × String) (change : FileChange) : Prop
  | whole (hchange : k.change lookahead t = .ok change)
    (hasked : FileChangeKind.ofStatus t.1 = .modified →
      w.Asked w' (.diffOf hash t.2) (.ok (k.diff t.2)))
  | untold {f : GitFailure} (hkind : FileChangeKind.ofStatus t.1 = .modified)
    (hasked : w.Asked w' (.diffOf hash t.2) (.error f)) (hchange : change = .untold t.2)

/-- What was told of a file by then has been told later as well. -/
theorem TellsFile.mono {t : List Char × String} {change : FileChange}
    (h : w.TellsFile w₁ k hash lookahead t change) (hcalls : w₁.calls <+: w₂.calls) :
    w.TellsFile w₂ k hash lookahead t change := by
  cases h with
  | whole hchange hasked => exact .whole hchange fun hkind => (hasked hkind).mono hcalls
  | untold hkind hasked hchange => exact .untold hkind (hasked.mono hcalls) hchange

/-- What is told of a commit between two worlds: something of each token file it touches, or
nothing if the command for the files fails. -/
inductive TellsChanges (w w' : World) (k : Contents) (hash : String) (lookahead : Int)
    (changes : List FileChange) : Prop
  | listed (hasked : w.Asked w' (.filesOf hash) (.ok k.files))
    (hchanges : List.Forall₂ (w.TellsFile w' k hash lookahead) k.touched changes)
  | unlisted {f : GitFailure} (hasked : w.Asked w' (.filesOf hash) (.error f))
    (hchanges : changes = [])

/-- What was told of the changes by then has been told later as well. -/
theorem TellsChanges.mono {changes : List FileChange}
    (h : w.TellsChanges w₁ k hash lookahead changes) (hcalls : w₁.calls <+: w₂.calls) :
    w.TellsChanges w₂ k hash lookahead changes := by
  cases h with
  | listed hasked hchanges =>
    exact .listed (hasked.mono hcalls) (hchanges.imp fun _ _ hfile => hfile.mono hcalls)
  | unlisted hasked hchanges => exact .unlisted (hasked.mono hcalls) hchanges

/-- If no command for a commit fails, all its changes are told. -/
theorem TellsChanges.eq_changes {changes : List FileChange}
    (h : w.TellsChanges w' k hash lookahead changes) (hmiss : ¬w.Misses w' hash) :
    k.changes lookahead = .ok changes := by
  cases h with
  | unlisted hasked hchanges => exact absurd ⟨_, .inl hasked⟩ hmiss
  | listed hasked hchanges =>
    apply mapM_eq_ok_iff.mpr
    apply hchanges.imp
    intro t change hfile
    cases hfile with
    | whole hchange _ => exact hchange
    | untold _ hasked _ => exact absurd ⟨_, .inr ⟨_, hasked⟩⟩ hmiss

variable {c : Chain} {contents : Fin c.size → Contents} {commit : Commit}

/-- A commit of a chain is reported with what is told of it between two worlds. -/
def TellsCommit (w w' : World) (contents : Fin c.size → Contents) (lookahead : Int)
    (commit : Commit) : Prop :=
  ∀ i, commit.hash = c.hash i → w.TellsChanges w' (contents i) (c.hash i) lookahead commit.changes

/-- What was told of a commit by then has been told later as well. -/
theorem TellsCommit.mono (h : w.TellsCommit w₁ contents lookahead commit)
    (hcalls : w₁.calls <+: w₂.calls) : w.TellsCommit w₂ contents lookahead commit :=
  fun i hi => (h i hi).mono hcalls

end World

namespace Detector

variable {first w : World} {k : Contents} {hash : String} {lookahead : Int}

/-- A diff is read as it is told, or as nothing where the command fails. -/
theorem reads_diffOf {file diff : String} (htold : w.git.TellsAtTimes (.diffOf hash file) diff)
    (hfirst : first.Precedes w) :
    Reads first w (diffOf hash file) fun w' text =>
      first.Asked w' (.diffOf hash file) (.ok diff) ∧ text = diff ∨
        (∃ e, first.Asked w' (.diffOf hash file) (.error e)) ∧ text = "" := by
  unfold diffOf
  rw [← bind_pure (Run.ask _)]
  exact .ask htold hfirst

/-- A token file that a commit touches is told as far as its diff is. -/
theorem reads_fileChange (hk : w.git.TellsCommit hash k) (hfirst : first.Precedes w)
    (t : List Char × String) :
    Reads first w (fileChange lookahead hash t.1 t.2) fun w' change =>
      first.TellsFile w' k hash lookahead t change := by
  unfold fileChange
  cases hkind : FileChangeKind.ofStatus t.1 with
  | modified =>
    apply (reads_diffOf (hk.diff t.2) hfirst).bind
    rintro diff w₁ hw₁ (⟨hasked, rfl⟩ | ⟨⟨f, hasked⟩, rfl⟩)
    · by_cases hdiff : Unreadable (k.diff t.2)
      · obtain ⟨digits, hrefused⟩ := TokenChange.exists_ofDiff_eq_error hdiff lookahead
        have hstop := outcome_ofExcept (TokenChange.ofDiff (k.diff t.2) lookahead) w₁
        rw [hrefused] at hstop
        rw [hrefused]
        exact .stopped (outcome_bind_of_error hstop _) (.refl w₁) rfl
          ⟨hash, t.2, k.diff t.2, hasked, hdiff⟩
      · obtain ⟨changes, hchanges⟩ := TokenChange.exists_ofDiff_eq_ok hdiff lookahead
        have hread := outcome_ofExcept (TokenChange.ofDiff (k.diff t.2) lookahead) w₁
        rw [hchanges] at hread
        rw [hchanges]
        refine .answered (outcome_bind_of_ok hread _) (.refl w₁) (.whole ?_ fun _ => hasked)
        simp only [Contents.change, hkind, hchanges]
        rfl
    · -- The diff that is not told is taken for one without changes.
      have hnone : TokenChange.ofDiff "" lookahead = .ok [] := rfl
      rw [hnone]
      exact .answered rfl (.refl w₁) (.untold hkind hasked rfl)
  | added =>
    exact .pure (.whole (by simp [Contents.change, hkind]; rfl) fun h => by simp [hkind] at h)
  | deleted =>
    exact .pure (.whole (by simp [Contents.change, hkind]; rfl) fun h => by simp [hkind] at h)

/-- A commit is told as far as the commands for it are answered. -/
theorem reads_changesOf (hk : w.git.TellsCommit hash k) (hfirst : first.Precedes w) :
    Reads first w (changesOf lookahead hash) fun w' changes =>
      first.TellsChanges w' k hash lookahead changes := by
  apply (Reads.ask hk.files hfirst).bind
  rintro listed w₁ hw₁ (⟨hasked, rfl⟩ | ⟨⟨f, hasked⟩, rfl⟩)
  · have hfiles : ∀ t ∈ k.touched, ∀ w₂, w₁.Precedes w₂ →
        Reads first w₂ (fileChange lookahead hash t.1 t.2) fun w' change =>
          first.TellsFile w' k hash lookahead t change := by
      intro t _ w₂ hw₂
      have hlater := hw₁.trans hw₂
      exact reads_fileChange (by rwa [hlater.git]) (hfirst.trans hlater) t
    apply (Reads.mapM (fun hcalls hfile => hfile.mono hcalls) hfiles).imp
    intro w' changes hw' hchanges
    exact .listed (hasked.mono hw'.calls) hchanges
  · exact .pure (.unlisted hasked rfl)

variable {c : Chain} {contents : Fin c.size → Contents} {d : Detector}

/-- A commit of a chain is reported with what is told of it, as far as the commands for it are
answered. -/
theorem reads_commitOf {fields : String × String × String × String} {i : Fin c.size}
    (hk : w.git.TellsCommit (c.hash i) (contents i)) (hfields : c.hash i = fields.1)
    (hfirst : first.Precedes w) :
    Reads first w (commitOf lookahead fields) fun w' commit =>
      commit.hash = fields.1 ∧ first.TellsCommit w' contents lookahead commit := by
  have hchanges : Reads first w (changesOf lookahead fields.1) fun w' changes =>
      first.TellsChanges w' (contents i) fields.1 lookahead changes :=
    reads_changesOf (hfields ▸ hk) hfirst
  apply hchanges.bind
  intro changes w₁ hw₁ htold
  refine .pure ⟨rfl, fun j hj => ?_⟩
  obtain rfl : i = j := c.distinct (hfields.trans hj)
  rwa [hfields]

/-- The commits of a log are reported, each with what is told of it. -/
theorem reads_commits {range since : Option String} {told : List (Fin c.size)}
    (hlog : ∀ history, ∃ entries,
      w.git.answer history (.log range since) = .ok (LogEntry.logText entries) ∧
        (entries.map LogEntry.hash).Perm (told.map c.hash))
    (hk : ∀ i, w.git.TellsCommit (c.hash i) (contents i)) (hfirst : first.Precedes w) :
    Reads first w (d.commits range since) fun w' found =>
      (found.map Commit.hash).Perm (told.map c.hash) ∧
        ∀ commit ∈ found, first.TellsCommit w' contents d.lookahead commit := by
  obtain ⟨entries, hanswer, hentries⟩ := hlog w.calls
  have hask : outcome (do return some (← Run.ask (.log range since))) w =
      (.ok (some (LogEntry.logText entries)), w.issued (.log range since)) :=
    outcome_bind_of_ok (outcome_ask_of_ok hanswer) _
  have hhashes : (fieldsIn (LogEntry.logText entries)).map Prod.fst = entries.map LogEntry.hash :=
    LogEntry.hashesIn_logText entries
  have hlisted : outcome (d.commits range since) w =
      outcome ((fieldsIn (LogEntry.logText entries)).mapM (commitOf d.lookahead))
        (w.issued (.log range since)) :=
    outcome_bind_of_ok (outcome_recover_of_ok hask _ _) _
  have hissued := World.Precedes.issued w (.log range since)
  have hcommits : ∀ fields ∈ fieldsIn (LogEntry.logText entries), ∀ w₁,
      (w.issued (.log range since)).Precedes w₁ →
        Reads first w₁ (commitOf d.lookahead fields) fun w' commit =>
          commit.hash = fields.1 ∧ first.TellsCommit w' contents d.lookahead commit := by
    intro fields hfields w₁ hw₁
    have hlater := hissued.trans hw₁
    have hmem : fields.1 ∈ told.map c.hash :=
      (hhashes ▸ hentries).mem_iff.mp (List.mem_map_of_mem hfields)
    obtain ⟨i, -, hi⟩ := List.mem_map.mp hmem
    exact reads_commitOf (hlater.git ▸ hk i) hi (hfirst.trans hlater)
  have hread := Reads.mapM (fun hcalls h => ⟨h.1, h.2.mono hcalls⟩) hcommits
  refine (hread.imp fun w' found hw' hfound => ?_).of_outcome hissued hlisted
  have hfirsts : found.map Commit.hash = (fieldsIn (LogEntry.logText entries)).map Prod.fst := by
    symm
    rw [← List.forall₂_eq_eq_eq, List.forall₂_map_left_iff, List.forall₂_map_right_iff]
    exact hfound.imp fun _ _ h => h.1.symm
  refine ⟨by rwa [hfirsts, hhashes], fun commit hcommit => ?_⟩
  obtain ⟨fields, -, -, htold⟩ := exists_of_mem_forall₂ hfound hcommit
  exact htold

end Detector

end DesignTokens
