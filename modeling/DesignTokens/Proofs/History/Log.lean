import DesignTokens.History.Detector
import DesignTokens.Proofs.Diff.Account
import DesignTokens.Proofs.Run
import DesignTokens.Proofs.Text.Blank
import DesignTokens.Proofs.Text.Lines

/-!
# Reading the log

The log tells one commit on each line, with bars between the hash, the author, the date and the
message. Read back from the whole text, the hashes are those of the commits in their order, whatever
stands in the other fields: the cuts are made from the left, and what trimming takes away belongs to
the last message.
-/

namespace DesignTokens

/-- A field as the log can tell it between bars: not empty, without white space around it, without
bars, and on one line. -/
structure IsLogField (field : String) : Prop where
  ne_empty : field ≠ ""
  trimmed : Text.trimString field = field
  bar : '|' ∉ field.toList
  oneLine : ∀ c ∈ field.toList, Text.isLineBoundary c = false

/-- Whether a text can be such a field can be computed. -/
theorem IsLogField.of_all {field : String} (hne : field ≠ "")
    (htrim : Text.trimString field = field)
    (hall : (field.toList.all fun c => c != '|' && !Text.isLineBoundary c) = true) :
    IsLogField field := by
  simp only [List.all_eq_true, Bool.and_eq_true, bne_iff_ne, Bool.not_eq_true'] at hall
  exact ⟨hne, htrim, fun hbar => (hall '|' hbar).1 rfl, fun c hc => (hall c hc).2⟩

/-- Such a field begins with a character that trimming leaves. -/
theorem IsLogField.exists_toList_eq_cons {field : String} (h : IsLogField field) :
    ∃ c rest, field.toList = c :: rest ∧ Text.isBlank c = false :=
  Text.exists_cons_of_trim (fun hnil => h.ne_empty (String.toList_eq_nil_iff.mp hnil))
    (Text.trim_toList_of_trimString h.trimmed)

/-- A commit that the log tells on one line. -/
structure LogEntry where
  hash : String
  author : List Char
  date : List Char
  message : List Char
  isHash : IsLogField hash
  oneLine : ∀ c ∈ author ++ date ++ message, Text.isLineBoundary c = false

namespace LogEntry

/-- The line about a commit. -/
def line (e : LogEntry) : List Char :=
  e.hash.toList ++ '|' :: (e.author ++ '|' :: (e.date ++ '|' :: e.message))

/-- The lines about commits as one text. -/
def logText (entries : List LogEntry) : String :=
  String.ofList (Text.joinWith ['\n'] (entries.map line))

/-- A commit without the white space at the end of its line. -/
def trimmed (e : LogEntry) : LogEntry :=
  { e with
    message := Text.dropEndWhile Text.isBlank e.message
    oneLine := by
      intro c hc
      refine e.oneLine c ?_
      rw [List.mem_append] at hc ⊢
      refine hc.imp_right fun hmessage => ?_
      have hsuffix := List.dropWhile_suffix Text.isBlank (l := e.message.reverse)
      exact List.mem_reverse.mp (hsuffix.subset (List.mem_reverse.mp hmessage)) }

/-- Commits without the white space at the end of the last line. -/
def trimLast : List LogEntry → List LogEntry
  | [] => []
  | [e] => [e.trimmed]
  | e :: f :: more => e :: trimLast (f :: more)

theorem map_hash_trimLast (entries : List LogEntry) :
    (trimLast entries).map hash = entries.map hash := by
  induction entries with
  | nil => rfl
  | cons e entries ih =>
    cases entries with
    | nil => rfl
    | cons f more => rw [trimLast, List.map_cons, ih]; rfl

theorem line_ne_nil (e : LogEntry) : e.line ≠ [] :=
  List.append_ne_nil_of_right_ne_nil _ (List.cons_ne_nil _ _)

/-- The line about a commit has no boundary in it. -/
theorem boundary_of_mem_line (e : LogEntry) : ∀ c ∈ e.line, Text.isLineBoundary c = false := by
  have hbar : Text.isLineBoundary '|' = false := by decide
  intro c hc
  have hfields := e.oneLine c
  simp only [line, List.mem_append, List.mem_cons] at hc hfields
  rcases hc with hhash | rfl | hauthor | rfl | hdate | rfl | hmessage
  · exact e.isHash.oneLine c hhash
  · exact hbar
  · exact hfields (.inl (.inl hauthor))
  · exact hbar
  · exact hfields (.inl (.inr hdate))
  · exact hbar
  · exact hfields (.inr hmessage)

/-- The bar before the message stays, so only the message loses anything. -/
theorem dropEndWhile_line (e : LogEntry) :
    Text.dropEndWhile Text.isBlank e.line = e.trimmed.line := by
  have hbar : Text.isBlank '|' = false := by decide
  unfold line
  rw [Text.dropEndWhile_append_cons hbar, Text.dropEndWhile_append_cons hbar,
    Text.dropEndWhile_append_cons hbar]
  rfl

private theorem exists_trimLast_eq_cons (e : LogEntry) (entries : List LogEntry) :
    ∃ f more, trimLast (e :: entries) = f :: more := by
  cases entries with
  | nil => exact ⟨_, _, rfl⟩
  | cons f more => exact ⟨_, _, rfl⟩

private theorem dropEndWhile_joinWith (entries : List LogEntry) :
    Text.dropEndWhile Text.isBlank (Text.joinWith ['\n'] (entries.map line)) =
      Text.joinWith ['\n'] ((trimLast entries).map line) := by
  induction entries with
  | nil => rfl
  | cons e entries ih =>
    cases entries with
    | nil => exact e.dropEndWhile_line
    | cons f more =>
      obtain ⟨g, rest, htrim⟩ := exists_trimLast_eq_cons f more
      have hne : Text.joinWith ['\n'] ((trimLast (f :: more)).map line) ≠ [] := by
        obtain ⟨tail, hjoin⟩ := Text.exists_joinWith_eq_append ['\n'] g.line (rest.map line)
        rw [htrim, List.map_cons, hjoin]
        exact List.append_ne_nil_of_left_ne_nil g.line_ne_nil tail
      have hjoin : Text.joinWith ['\n'] ((e :: f :: more).map line) =
          (e.line ++ ['\n']) ++ Text.joinWith ['\n'] ((f :: more).map line) := by
        simp only [List.map_cons, Text.joinWith_cons_cons, List.append_assoc]
      have hjoin' : Text.joinWith ['\n'] ((trimLast (e :: f :: more)).map line) =
          (e.line ++ ['\n']) ++ Text.joinWith ['\n'] ((trimLast (f :: more)).map line) := by
        simp only [trimLast, htrim, List.map_cons, Text.joinWith_cons_cons, List.append_assoc]
      rw [← ih] at hne
      rw [hjoin, hjoin', Text.dropEndWhile_append hne, ih]

/-- A line begins with a character that trimming leaves. -/
theorem exists_line_eq_cons (e : LogEntry) : ∃ c rest, e.line = c :: rest ∧
    Text.isBlank c = false := by
  obtain ⟨c, rest, hhash, hblank⟩ := e.isHash.exists_toList_eq_cons
  have hline : e.line =
      c :: (rest ++ '|' :: (e.author ++ '|' :: (e.date ++ '|' :: e.message))) := by
    rw [line, hhash, List.cons_append]
  exact ⟨c, _, hline, hblank⟩

/-- Trimming the log trims its last line. -/
theorem trim_logText (entries : List LogEntry) :
    Text.trim (logText entries).toList =
      Text.joinWith ['\n'] ((trimLast entries).map line) := by
  unfold logText
  rw [String.toList_ofList, ← dropEndWhile_joinWith]
  cases entries with
  | nil => rfl
  | cons e more =>
    obtain ⟨c, rest, hline, hblank⟩ := e.exists_line_eq_cons
    obtain ⟨tail, hjoin⟩ := Text.exists_joinWith_eq_append ['\n'] e.line (more.map line)
    rw [List.map_cons, hjoin, hline, List.cons_append, Text.trim_cons hblank]

/-- The hash is read from the line about a commit, whatever stands in the other fields. -/
theorem exists_logLine?_line (e : LogEntry) :
    ∃ fields, Detector.logLine? e.line = some (e.hash, fields) := by
  have hlength := Text.length_splitFirst '|' 2
    (e.author ++ '|' :: (e.date ++ '|' :: e.message))
  rw [List.count_append, List.count_cons_self, List.count_append, List.count_cons_self] at hlength
  obtain ⟨author, date, message, hfields⟩ := List.length_eq_three.mp
    (hlength.trans (by omega))
  have hsplit : Text.splitFirst '|' 3 e.line = [e.hash.toList, author, date, message] := by
    rw [line, Text.splitFirst_append e.isHash.bar, hfields]
  unfold Detector.logLine?
  simp only [hsplit, String.ofList_toList]
  exact ⟨_, rfl⟩

/-- The hashes in the text of a log. -/
def hashesIn (text : String) : List String :=
  ((Text.splitLines (Text.trim text.toList)).filterMap Detector.logLine?).map Prod.fst

/-- The hashes in the text of a log are those of its commits. -/
theorem hashesIn_logText (entries : List LogEntry) :
    hashesIn (logText entries) = entries.map hash := by
  have hlines : ∀ l ∈ (trimLast entries).map line,
      l ≠ [] ∧ ∀ c ∈ l, Text.isLineBoundary c = false := by
    intro l hl
    obtain ⟨e, -, rfl⟩ := List.mem_map.mp hl
    exact ⟨e.line_ne_nil, e.boundary_of_mem_line⟩
  unfold hashesIn
  rw [trim_logText, Text.splitLines_joinWith hlines, ← map_hash_trimLast]
  generalize trimLast entries = read
  induction read with
  | nil => rfl
  | cons e read ih =>
    obtain ⟨fields, hline⟩ := e.exists_logLine?_line
    rw [List.map_cons, List.filterMap_cons, hline]
    simp only [List.map_cons, ih]

end LogEntry

/-- The version control system tells what every commit touches and changes, with numbers that
fit. -/
structure GitService.TellsChanges (g : GitService) : Prop where
  filesOf : ∀ history hash, ∃ text, g.answer history (.filesOf hash) = .ok text
  diffOf : ∀ history hash file, ∃ text, g.answer history (.diffOf hash file) = .ok text ∧
    ∀ line ∈ Text.splitOn '\n' text.toList, DiffLine.NumberFits line

/-- The version control system tells what a commit touches and changes, with numbers that fit, or
fails by itself. -/
structure GitService.TellsOrFails (g : GitService) : Prop where
  filesOf : ∀ history hash f, g.answer history (.filesOf hash) = .error f → f.cause.isGit = true
  diffOf : ∀ history hash file f, g.answer history (.diffOf hash file) = .error f →
    f.cause.isGit = true
  readable : ∀ history hash file diff, g.answer history (.diffOf hash file) = .ok diff →
    ∀ line ∈ Text.splitOn '\n' diff.toList, DiffLine.NumberFits line

theorem GitService.TellsChanges.tellsOrFails {g : GitService} (h : g.TellsChanges) :
    g.TellsOrFails where
  filesOf history hash f hfailed := by
    obtain ⟨text, hanswer⟩ := h.filesOf history hash
    cases hanswer.symm.trans hfailed
  diffOf history hash file f hfailed := by
    obtain ⟨text, hanswer, -⟩ := h.diffOf history hash file
    cases hanswer.symm.trans hfailed
  readable history hash file diff hdiff := by
    obtain ⟨text, hanswer, hfits⟩ := h.diffOf history hash file
    obtain rfl := Except.ok.inj (hanswer.symm.trans hdiff)
    exact hfits

/-- The fields of a commit that the log tells. -/
def Commit.logFields (c : Commit) : String × String × String × String :=
  (c.hash, c.author, c.date, c.message)

namespace Detector

variable {w : World}

/-- The fields of the commits in the text of a log. -/
def fieldsIn (text : String) : List (String × String × String × String) :=
  (Text.splitLines (Text.trim text.toList)).filterMap logLine?

/-- What a commit changes in a file is read. -/
theorem yields_fileChange (hg : w.git.TellsOrFails) (lookahead : Int) (hash : String)
    (status : List Char) (path : String) :
    Yields w (fileChange lookahead hash status path) fun _ => True := by
  unfold fileChange
  split
  · have hdiff : Yields w (diffOf hash path) fun text =>
        ∀ line ∈ Text.splitOn '\n' text.toList, DiffLine.NumberFits line := by
      unfold diffOf
      rw [← bind_pure (Run.ask _)]
      refine Yields.ask_recover (fun history => hg.readable history hash path)
        (fun history => hg.diffOf history hash path) fun e => ?_
      exact (Yields.warn _).bind fun _ _ => Yields.pure (by decide)
    refine hdiff.bind fun text hfits => ?_
    obtain ⟨changes, origins, hread, -⟩ := TokenChange.exists_origins lookahead hfits
    exact (Yields.ofExcept hread).bind fun _ _ => Yields.pure trivial
  · exact Yields.pure trivial

/-- What a commit touches is read. -/
theorem yields_changesOf (hg : w.git.TellsOrFails) (lookahead : Int) (hash : String) :
    Yields w (changesOf lookahead hash) fun _ => True := by
  refine Yields.bind (p := fun _ => True) ?_ fun listed _ => ?_
  · refine Yields.ask_recover (fun _ _ _ => trivial)
      (fun history => hg.filesOf history hash) fun e => ?_
    exact (Yields.warn _).bind fun _ _ => Yields.pure trivial
  · cases listed with
    | none => exact Yields.pure trivial
    | some text =>
      exact (Yields.mapM fun t _ => yields_fileChange hg lookahead hash t.1 t.2).imp
        fun _ _ => trivial

/-- A commit is reported with the fields that the log tells. -/
theorem yields_commitOf (hg : w.git.TellsOrFails) (lookahead : Int)
    (fields : String × String × String × String) :
    Yields w (commitOf lookahead fields) fun commit => commit.logFields = fields :=
  (yields_changesOf hg lookahead fields.1).bind fun _ _ => Yields.pure rfl

private theorem map_logFields_of_forall₂ {lines : List (String × String × String × String)}
    {found : List Commit}
    (h : List.Forall₂ (fun fields commit => commit.logFields = fields) lines found) :
    found.map Commit.logFields = lines := by
  induction h with
  | nil => rfl
  | cons hfields _ ih => rw [List.map_cons, hfields, ih]

/-- The commits of a log are reported with the fields that stand in it. -/
theorem exists_outcome_commits {d : Detector} {range since : Option String} {text : String}
    (hg : w.git.TellsOrFails) (hlog : w.git.answer w.calls (.log range since) = .ok text) :
    ∃ found w₁, outcome (d.commits range since) w = (.ok found, w₁) ∧ w₁.base = w.base ∧
      found.map Commit.logFields = fieldsIn text := by
  have hask : outcome (do return some (← Run.ask (.log range since))) w =
      (.ok (some text), w.issued (.log range since)) :=
    outcome_bind_of_ok (outcome_ask_of_ok hlog) _
  have hcommits : Yields (w.issued (.log range since))
      ((fieldsIn text).mapM (commitOf d.lookahead)) fun found =>
        List.Forall₂ (fun fields commit => commit.logFields = fields) (fieldsIn text) found :=
    Yields.mapM fun fields _ => yields_commitOf hg d.lookahead fields
  obtain ⟨found, w₁, hfound, hbase, hfields⟩ := hcommits _ rfl
  refine ⟨found, w₁, ?_, hbase, map_logFields_of_forall₂ hfields⟩
  unfold commits
  rw [outcome_bind_of_ok (outcome_recover_of_ok hask _ _)]
  exact hfound

/-- The commits of a log are reported with the hashes that stand in it. -/
theorem yields_commits {d : Detector} {range since : Option String} {p : String → Prop}
    (hg : w.git.TellsChanges)
    (hlog : ∀ history, ∃ text, w.git.answer history (.log range since) = .ok text ∧ p text) :
    Yields w (d.commits range since) fun found =>
      ∃ text, p text ∧ found.map Commit.hash = LogEntry.hashesIn text := by
  intro w₁ hw₁
  obtain ⟨text, hanswer, htext⟩ := hlog w₁.calls
  have hgit := World.git_of_base hw₁
  rw [← hgit] at hg hanswer
  obtain ⟨found, w₂, hfound, hbase, hfields⟩ :=
    exists_outcome_commits (d := d) hg.tellsOrFails hanswer
  refine ⟨found, w₂, hfound, hbase.trans hw₁, text, htext, ?_⟩
  have hhashes := congrArg (List.map Prod.fst) hfields
  rwa [List.map_map] at hhashes

end Detector

end DesignTokens
