import DesignTokens.Proofs.History.Answered
import DesignTokens.Proofs.History.Log
import DesignTokens.Proofs.History.Store

/-!
# Subjects in the log

A line of the log is a hash, an author, a date and a subject with bars between them, and the lines
are joined by line feeds. Read back, the bars in a subject do no harm, and neither does a subject
that is empty. What does harm is a character in a subject that ends a line without being a line
feed: the log is cut there as well. The commits are read back exactly if no subject has one.
-/

namespace DesignTokens

namespace Text

/-- What is trimmed has no white space at its end. -/
theorem dropEndWhile_of_trim {s : List Char} (h : trim s = s) : dropEndWhile isBlank s = s := by
  have htwice := dropEndWhile_dropEndWhile isBlank (s.dropWhile isBlank)
  have htrim : dropEndWhile isBlank (s.dropWhile isBlank) = s := h
  rwa [htrim] at htwice

end Text

/-- A commit as a line of the log tells it. The subject comes last and may have anything in it but a
line feed. -/
structure LogRecord where
  hash : String
  author : String
  date : String
  subject : String
  isHash : IsLogField hash
  isAuthor : IsLogField author
  isDate : IsLogField date
  lineFeed : '\n' ∉ subject.toList
  trimmed : Text.trimString subject = subject

namespace LogRecord

/-- The four fields. -/
def fields (r : LogRecord) : String × String × String × String :=
  (r.hash, r.author, r.date, r.subject)

/-- The line of the log. -/
def line (r : LogRecord) : List Char :=
  r.hash.toList ++ '|' :: (r.author.toList ++ '|' :: (r.date.toList ++ '|' :: r.subject.toList))

/-- The lines of commits, joined by line feeds. -/
def logText (records : List LogRecord) : String :=
  String.ofList (Text.joinWith ['\n'] (records.map line))

/-- The subject is in one line for every notion of a line. -/
def IsOneLine (r : LogRecord) : Prop := ∀ c ∈ r.subject.toList, Text.isLineBoundary c = false

instance (r : LogRecord) : Decidable r.IsOneLine := List.decidableBAll _ r.subject.toList

theorem line_ne_nil (r : LogRecord) : r.line ≠ [] :=
  List.append_ne_nil_of_right_ne_nil _ (List.cons_ne_nil _ _)

/-- The line is cut at its first three bars, wherever there are more. -/
theorem logLine?_line (r : LogRecord) : Detector.logLine? r.line = some r.fields := by
  have hsplit : Text.splitFirst '|' 3 r.line =
      [r.hash.toList, r.author.toList, r.date.toList, r.subject.toList] := by
    rw [line, Text.splitFirst_append r.isHash.bar, Text.splitFirst_append r.isAuthor.bar,
      Text.splitFirst_append r.isDate.bar, Text.splitFirst]
  unfold Detector.logLine?
  simp only [hsplit, String.ofList_toList]
  rfl

/-- There is no white space at the end of a line. -/
theorem dropEndWhile_line (r : LogRecord) : Text.dropEndWhile Text.isBlank r.line = r.line := by
  have hbar : Text.isBlank '|' = false := by decide
  have hsubject := Text.trim_toList_of_trimString r.trimmed
  unfold line
  rw [Text.dropEndWhile_append_cons hbar, Text.dropEndWhile_append_cons hbar,
    Text.dropEndWhile_append_cons hbar, Text.dropEndWhile_of_trim hsubject]

/-- There is no white space at the end of lines that are joined. -/
theorem dropEndWhile_joinWith (records : List LogRecord) :
    Text.dropEndWhile Text.isBlank (Text.joinWith ['\n'] (records.map line)) =
      Text.joinWith ['\n'] (records.map line) := by
  induction records with
  | nil => rfl
  | cons r records ih =>
    cases records with
    | nil => exact r.dropEndWhile_line
    | cons next more =>
      have hne : Text.joinWith ['\n'] ((next :: more).map line) ≠ [] := by
        obtain ⟨tail, hjoin⟩ := Text.exists_joinWith_eq_append ['\n'] next.line (more.map line)
        rw [List.map_cons, hjoin]
        exact List.append_ne_nil_of_left_ne_nil next.line_ne_nil tail
      rw [← ih] at hne
      rw [List.map_cons, List.map_cons, Text.joinWith_cons_cons, ← List.map_cons,
        ← List.append_assoc, Text.dropEndWhile_append hne, ih]

/-- There is no white space around the log. -/
theorem trim_logText (records : List LogRecord) :
    Text.trim (logText records).toList = Text.joinWith ['\n'] (records.map line) := by
  unfold logText
  rw [String.toList_ofList]
  cases records with
  | nil => rfl
  | cons r more =>
    obtain ⟨c, rest, hhash, hblank⟩ := r.isHash.exists_toList_eq_cons
    obtain ⟨tail, hjoin⟩ := Text.exists_joinWith_eq_append ['\n'] r.line (more.map line)
    have hcons : ∃ others, Text.joinWith ['\n'] ((r :: more).map line) = c :: others := by
      rw [List.map_cons, hjoin, line, hhash]
      exact ⟨_, rfl⟩
    obtain ⟨others, hothers⟩ := hcons
    have hend := dropEndWhile_joinWith (r :: more)
    rw [hothers] at hend ⊢
    rw [Text.trim_cons hblank, hend]

/-- A line with a subject in one line is in one line. -/
theorem IsOneLine.line {r : LogRecord} (h : r.IsOneLine) :
    ∀ c ∈ r.line, Text.isLineBoundary c = false := by
  have hbar : Text.isLineBoundary '|' = false := by decide
  intro c hc
  simp only [LogRecord.line, List.mem_append, List.mem_cons] at hc
  rcases hc with hhash | rfl | hauthor | rfl | hdate | rfl | hsubject
  · exact r.isHash.oneLine c hhash
  · exact hbar
  · exact r.isAuthor.oneLine c hauthor
  · exact hbar
  · exact r.isDate.oneLine c hdate
  · exact hbar
  · exact h c hsubject

/-- Subjects in one line are read back with the other fields. -/
theorem fieldsIn_logText {records : List LogRecord} (h : ∀ r ∈ records, r.IsOneLine) :
    Detector.fieldsIn (logText records) = records.map fields := by
  have hlines : ∀ l ∈ records.map line, l ≠ [] ∧ ∀ c ∈ l, Text.isLineBoundary c = false := by
    intro l hl
    obtain ⟨r, hr, rfl⟩ := List.mem_map.mp hl
    exact ⟨r.line_ne_nil, (h r hr).line⟩
  unfold Detector.fieldsIn
  rw [trim_logText, Text.splitLines_joinWith hlines, List.filterMap_map, ← List.filterMap_eq_map]
  exact List.filterMap_congr fun r _ => r.logLine?_line

/-- Every subject that is read is in one line. -/
theorem boundary_of_mem_fieldsIn {text : String} {found : String × String × String × String}
    (h : found ∈ Detector.fieldsIn text) :
    ∀ c ∈ found.2.2.2.toList, Text.isLineBoundary c = false := by
  obtain ⟨l, hl, hread⟩ := List.mem_filterMap.mp h
  intro c hc
  unfold Detector.logLine? at hread
  split at hread
  · rename_i hash author date message hsplit
    obtain rfl := Option.some.inj hread
    rw [String.toList_ofList] at hc
    have hmem : message ∈ Text.splitFirst '|' 3 l := by
      rw [hsplit]
      simp
    exact Text.boundary_of_mem_splitLines hl (Text.mem_of_mem_splitFirst hmem hc)
  · cases hread

/-- The commits of a log are read back exactly if their subjects are in one line. -/
theorem fieldsIn_logText_iff {records : List LogRecord} :
    Detector.fieldsIn (logText records) = records.map fields ↔ ∀ r ∈ records, r.IsOneLine := by
  refine ⟨fun h r hr => ?_, fieldsIn_logText⟩
  have hread : r.fields ∈ Detector.fieldsIn (logText records) := by
    rw [h]
    exact List.mem_map_of_mem hr
  exact boundary_of_mem_fieldsIn hread

end LogRecord

namespace Detector

open Detection Terminal

variable {d : Detector} {w w₁ : World} {text : String} {request : Request}

/-- The question about the log for a report of new commits up to the one checked out. -/
def logCall (d : Detector) (latest : String) : GitCall :=
  match given d.pointer with
  | none => .log none (some (since (.hours d.lookbackHours)))
  | some pointer => .log (some (pointer ++ ".." ++ latest)) none

/-- A request leads to a question about the log of an open repository, and a text is the answer. For
a report of new commits the one that is checked out is not the last processed one. -/
inductive ReadsLog (d : Detector) (w : World) (text : String) : Request → Prop
  | recent {opened : String} (span : Lookback) (hpath : pathExists w d.path = .ok true)
    (hopen : w.git.answer w.calls (.opened d.path) = .ok opened)
    (hlog : w.git.answer (w.calls ++ [.opened d.path]) (.log none (some (since span))) =
      .ok text) : ReadsLog d w text (.recent span)
  | sinceLast {opened head latest : String} (hpath : pathExists w d.path = .ok true)
    (hopen : w.git.answer w.calls (.opened d.path) = .ok opened)
    (hhead : w.git.answer (w.calls ++ [.opened d.path]) .head = .ok head)
    (hlatest : PointerStore.hashIn head = some latest) (hnew : given d.pointer ≠ some latest)
    (hlog : w.git.answer (w.calls ++ [.opened d.path, .head]) (d.logCall latest) = .ok text) :
    ReadsLog d w text .sinceLast

/-- A question about the log after a line about the progress. -/
theorem exists_outcome_commits_of_said {range since : Option String} (line : String)
    (hg : w.git.TellsOrFails) (hlog : w.git.answer w.calls (.log range since) = .ok text) :
    ∃ found w₁, outcome (d.commits range since) (w.said line) = (.ok found, w₁) ∧
      found.map Commit.logFields = fieldsIn text := by
  have hpasses := World.Passes.said w line
  have hcalls : (w.said line).calls = w.calls := by
    unfold World.said
    split <;> rfl
  rw [← hpasses.git] at hg
  rw [← hpasses.git, ← hcalls] at hlog
  obtain ⟨found, w₁, hfound, -, hfields⟩ := exists_outcome_commits (d := d) hg hlog
  exact ⟨found, w₁, hfound, hfields⟩

/-- New commits are those of the log. -/
theorem exists_outcome_commitsUpTo {latest : String} (hg : w.git.TellsOrFails)
    (hnew : given d.pointer ≠ some latest)
    (hlog : w.git.answer w.calls (d.logCall latest) = .ok text) :
    ∃ found w₁, outcome (d.commitsUpTo latest) w = (.ok found, w₁) ∧
      found.map Commit.logFields = fieldsIn text := by
  unfold commitsUpTo
  unfold logCall at hlog
  cases hpointer : given d.pointer with
  | none =>
    simp only [hpointer] at hlog ⊢
    rw [outcome_bind_of_ok (outcome_say _ w)]
    exact exists_outcome_commits_of_said _ hg hlog
  | some pointer =>
    have hne : pointer ≠ latest := fun h => hnew (by rw [hpointer, h])
    simp only [hpointer, if_neg hne] at hlog ⊢
    rw [outcome_bind_of_ok (outcome_say _ w)]
    exact exists_outcome_commits_of_said _ hg hlog

/-- A report has the commits of the log with the fields that stand in it. -/
theorem exists_answer_turn_of_readsLog [Nesting.Room] (hd : d.IsUsable) (hg : w.git.TellsOrFails)
    (h : d.ReadsLog w text request) :
    ∃ found, (d.turn request w).answer = .ok found ∧
      found.map Commit.logFields = fieldsIn text := by
  cases h with
  | recent span hpath hopen hlog =>
    have hopened := outcome_openRepository_of_ok hpath hopen
    obtain ⟨found, w₁, hfound, hfields⟩ := exists_outcome_commits_of_said (d := d)
      (w := w.issued (.opened d.path))
      (paint grey ("🔍 Getting changes from last " ++ span.text ++ " hours")) hg hlog
    have hscan : outcome (scanRecent span) (d, w) = (.ok found, d, w₁) := by
      unfold scanRecent
      rw [outcome_bind_of_ok outcome_detector, outcome_bind_of_ok (outcome_ofRun hopened)]
      simp only [if_true]
      rw [outcome_bind_of_ok (outcome_ofRun (outcome_say _ _)), outcome_ofRun hfound]
    have hdetect : outcome (Request.recent span).detect (d, w) = (.ok found, d, w₁) :=
      outcome_recover_of_ok hscan _ _
    rw [turn_eq hdetect]
    exact ⟨found, rfl, hfields⟩
  | @sinceLast _ _ latest hpath hopen hhead hlatest hnew hlog =>
    have hscan := outcome_scanSinceLast_of_ok hpath hopen hhead
    rw [hlatest] at hscan
    have hcalls : ((w.issued (.opened d.path)).issued .head).calls =
        w.calls ++ [.opened d.path, .head] := List.append_assoc _ _ _
    obtain ⟨found, w₁, hfound, hfields⟩ := exists_outcome_commitsUpTo
      (w := (w.issued (.opened d.path)).issued .head) hg hnew (hcalls ▸ hlog)
    have hreport : ∃ d' w₂, outcome scanSinceLast (d, w) = (.ok found, d', w₂) := by
      rw [hscan]
      by_cases hnil : found = []
      · subst hnil
        exact ⟨_, _, outcome_reportUpTo_of_nil hfound⟩
      · obtain ⟨store, w₂, hsave, -⟩ := hd.store.save latest w₁
        obtain ⟨w₃, hreport, -⟩ := exists_reportUpTo_of_save hfound hnil hsave
        exact ⟨_, _, hreport⟩
    obtain ⟨d', w₂, hreport⟩ := hreport
    have hdetect : outcome Request.sinceLast.detect (d, w) = (.ok found, d', w₂) :=
      outcome_recover_of_ok hreport _ _
    rw [turn_eq hdetect]
    exact ⟨found, rfl, hfields⟩

/-- When a request leads to the log and the log has the lines of commits, the answer is these
commits in this order with these fields exactly if no subject has a character that ends a line. -/
theorem answer_turn_eq_records_iff [Nesting.Room] (hd : d.IsUsable) (hg : w.git.TellsOrFails)
    {records : List LogRecord} (h : d.ReadsLog w (LogRecord.logText records) request) :
    (∃ found, (d.turn request w).answer = .ok found ∧
      found.map Commit.logFields = records.map LogRecord.fields) ↔
      ∀ r ∈ records, ∀ c ∈ r.subject.toList, Text.isLineBoundary c = false := by
  obtain ⟨found, hanswer, hfields⟩ := exists_answer_turn_of_readsLog hd hg h
  refine Iff.trans ?_ LogRecord.fieldsIn_logText_iff
  rw [← hfields]
  constructor
  · rintro ⟨other, hother, hrecords⟩
    rw [Except.ok.inj (hanswer.symm.trans hother)]
    exact hrecords
  · exact fun hrecords => ⟨found, hanswer, hrecords⟩

end Detector

/-- A commit with a bar in its subject. -/
def barRecord : LogRecord where
  hash := "a1"
  author := "Ann"
  date := "today"
  subject := "Darker | red"
  isHash := IsLogField.of_all (by decide) (by decide) (by decide)
  isAuthor := IsLogField.of_all (by decide) (by decide) (by decide)
  isDate := IsLogField.of_all (by decide) (by decide) (by decide)
  lineFeed := by decide
  trimmed := by decide

/-- A commit with a line separator in its subject. -/
def separatorRecord : LogRecord :=
  { barRecord with
    subject := "Darker\u2028red"
    lineFeed := by decide
    trimmed := by decide }

/-- A world with a repository at its root whose log has one commit. -/
def logWorld (r : LogRecord) : World :=
  { redWorld with
    git :=
      { redService with
        answer := fun _ call => match call with
          | .head => .ok r.hash
          | .log _ _ => .ok (LogRecord.logText [r])
          | _ => .ok "" } }

theorem tellsOrFails_logWorld (r : LogRecord) : (logWorld r).git.TellsOrFails where
  filesOf := by
    intro history hash f h
    cases h
  diffOf := by
    intro history hash file f h
    cases h
  readable := by
    intro history hash file diff h
    obtain rfl := Except.ok.inj h
    decide

/-- A detector at the root that has processed nothing. -/
def rootDetector : Detector := ⟨.text "/", .memory none, 24, 10, none⟩

attribute [local instance] Nesting.Room.ample

theorem isUsable_rootDetector : rootDetector.IsUsable := ⟨⟨"/", rfl⟩, trivial⟩

theorem readsLog_logWorld (r : LogRecord) :
    rootDetector.ReadsLog (logWorld r) (LogRecord.logText [r]) .sinceLast := by
  have hlatest : PointerStore.hashIn r.hash = some r.hash := by
    rw [PointerStore.hashIn_eq, r.isHash.trimmed, if_neg r.isHash.ne_empty]
  exact .sinceLast rfl rfl rfl hlatest nofun rfl

/-- A subject with a bar is read back. -/
theorem answer_barRecord :
    rootDetector.IsUsable ∧ (logWorld barRecord).git.TellsOrFails ∧
      rootDetector.ReadsLog (logWorld barRecord) (LogRecord.logText [barRecord]) .sinceLast ∧
      ∃ found, (rootDetector.turn .sinceLast (logWorld barRecord)).answer = .ok found ∧
        found.map Commit.logFields = [("a1", "Ann", "today", "Darker | red")] := by
  have hlog := readsLog_logWorld barRecord
  have hline : ∀ r ∈ [barRecord], r.IsOneLine := List.forall_mem_singleton.mpr (by decide)
  exact ⟨isUsable_rootDetector, tellsOrFails_logWorld barRecord, hlog,
    (Detector.answer_turn_eq_records_iff isUsable_rootDetector (tellsOrFails_logWorld barRecord)
      hlog).mpr hline⟩

/-- Commits are not read back from every log: a line separator in a subject cuts it. -/
theorem not_forall_answer_eq_records :
    ¬∀ (d : Detector) (w : World) (request : Request) (records : List LogRecord),
      d.IsUsable → w.git.TellsOrFails → d.ReadsLog w (LogRecord.logText records) request →
        ∃ found, (d.turn request w).answer = .ok found ∧
          found.map Commit.logFields = records.map LogRecord.fields := by
  intro hreads
  have hlog := readsLog_logWorld separatorRecord
  have hg := tellsOrFails_logWorld separatorRecord
  obtain ⟨found, hanswer, hrecords⟩ := hreads _ _ _ _ isUsable_rootDetector hg hlog
  obtain ⟨other, hother, hfields⟩ :=
    Detector.exists_answer_turn_of_readsLog isUsable_rootDetector hg hlog
  obtain rfl := Except.ok.inj (hanswer.symm.trans hother)
  have hline := LogRecord.fieldsIn_logText_iff.mp (hfields.symm.trans hrecords) separatorRecord
    List.mem_cons_self
  have hseparator : ¬separatorRecord.IsOneLine := by decide
  exact hseparator hline

end DesignTokens
