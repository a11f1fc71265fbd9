import DesignTokens.Proofs.CommandLine.Progress
import DesignTokens.Proofs.CommandLine.Switches
import DesignTokens.Proofs.Scan.Account
import DesignTokens.Proofs.Value.Grammar

/-!
# What a call writes

A call that is to write JSON and comes to something to print writes lines about its progress, and
after them one document. Unless progress is kept back there is such a line, and then what was
written is no document as a whole. A document with a whole number that cannot be written breaks the
call off.
-/

namespace DesignTokens.CommandLine

variable {α : Type} {o : Options} {settings : Settings} {w w₁ w₂ left : World}

/-- The text of lines, each with its end. -/
def linesText (lines : List String) : String := String.join (lines.map (· ++ "\n"))

/-- Whether options ask for changes of tokens, and not for a scan. -/
def Options.asksForChanges (o : Options) : Bool := o.changes || o.recent.isSome

/-- The world in which options are carried out. -/
def Options.begin (o : Options) (w : World) : World := { w with verbose := !o.quiet }

/-- Writes the reports that were asked for to files. -/
def writeFiles [Nesting.Room] (settings : Settings) (o : Options) (results : List ScanResult) :
    Run Unit := do
  if !o.noReport then discard (Report.writeDocument results settings.outputPath)
  if o.htmlReport then discard (Report.writePage results settings.outputPath)

/-- The report on results that is there to print once the files that were asked for are written. -/
def reportAfterFiles [Nesting.Room] (settings : Settings) (o : Options) (results : List ScanResult)
    (w : World) :
    Except Failure Value := do
  (outcome (writeFiles settings o results) w).1
  return (← Report.collect w.now results).toValue

/-- What there is to print when options are carried out in a world: the commits that are found in
the design system, if a path to it is configured, or the report on the results of a scan, if there
are repositories to scan. With results, there may be no report on them, or a file that was asked for
may not be written. -/
inductive Finds [Nesting.Room] (o : Options) (w : World) : Except Failure Value → Prop
  | commits {settings : Settings} {d : Detector} {w₁ left : World} {found : List Commit}
    (hload : (outcome (Settings.load o.config) w).1 = .ok settings)
    (hasks : o.asksForChanges = true)
    (hpath : (settings.designSystemPath w.designSystemVariable).isGiven = true)
    (hdetector :
      outcome (detectorFor settings (settings.designSystemPath w.designSystemVariable)) w =
        (.ok d, w₁))
    (hfound : outcome (detectCommits d o.recent) w₁ = (.ok found, left)) :
    Finds o w (.ok (Commit.listing found))
  | results {settings : Settings} {repositories : List Repository} {scanner : Scanner}
    {w₁ left : World} {results : List ScanResult}
    (hload : (outcome (Settings.load o.config) w).1 = .ok settings)
    (hasks : o.asksForChanges = false)
    (hselect : outcome (Repository.select settings o.directory o.team) w = (.ok repositories, w₁))
    (hsome : repositories ≠ [])
    (hscanner : Scanner.ofSettings settings o.preset = .ok scanner)
    (hscan : outcome (scanner.scanAll repositories) w₁ = (.ok results, left)) :
    Finds o w (reportAfterFiles settings o results left)

/-- How a call ends that has something to print. If there is a document that can be written, the
call writes lines about progress and then the document, and exactly if progress is kept back there
are no such lines and all that is written is a document. A document that cannot be written breaks
the call off after the lines about progress, as what stands in its way does if there is none. -/
inductive Ending (o : Options) (w : World) :
    Except Failure Value → Except Failure Nat × World → Prop
  | told {document : Value} {progress : List String} {left : World}
    (hwritable : document.IsWritable) (hprogress : progress = [] ↔ o.quiet = true)
    (houtput : left.output = w.output ++ (progress ++ [document.written]))
    (hdocument : Value.IsDocument (linesText (progress ++ [document.written])).toList ↔
      o.quiet = true) :
    Ending o w (.ok document) (.ok successCode, left)
  | unwritten {document : Value} {progress : List String} {left : World}
    (hunwritable : ¬document.IsWritable) (hprogress : progress = [] ↔ o.quiet = true)
    (houtput : left.output = w.output ++ progress) :
    Ending o w (.ok document) (.error (.value .unwritable), left)
  | brokenOff {progress : List String} {left : World} {e : Failure}
    (hprogress : progress = [] ↔ o.quiet = true) (houtput : left.output = w.output ++ progress) :
    Ending o w (.error e) (.error e, left)

/-- How a run ends that prints a document, if there is one. -/
def ended (left : World) : Except Failure Value → Except Failure Unit × World
  | .ok document => outcome (Run.printDocument document) left
  | .error e => (.error e, left)

section Text

variable {document : Value}

theorem outcome_printDocument_of_isWritable (h : document.IsWritable) (w : World) :
    outcome (Run.printDocument document) w = (.ok (), w.printed document.written) := by
  unfold Run.printDocument
  rw [Value.cut?_eq_none_iff.mpr h]
  exact outcome_print _ w

theorem outcome_printDocument_of_not_isWritable (h : ¬document.IsWritable) (w : World) :
    outcome (Run.printDocument document) w = (.error (.value .unwritable), w) := by
  obtain ⟨before, hcut⟩ := Option.ne_none_iff_exists'.mp (mt Value.cut?_eq_none_iff.mp h)
  unfold Run.printDocument
  rw [hcut]
  rfl

theorem toList_linesText_cons (line : String) (lines : List String) :
    (linesText (line :: lines)).toList = line.toList ++ '\n' :: (linesText lines).toList := by
  simp [linesText, String.toList_append]

/-- Lines about progress with a document after them are a document as a whole only if there are no
such lines. -/
theorem isDocument_linesText_iff {progress : List String}
    (h : ∀ line ∈ progress, Terminal.IsPainted line) :
    Value.IsDocument (linesText (progress ++ [document.written])).toList ↔ progress = [] := by
  cases progress with
  | nil =>
    refine iff_of_true ?_ rfl
    rw [List.nil_append, toList_linesText_cons]
    exact Value.isDocument_written document (List.forall_mem_singleton.mpr rfl)
  | cons line more =>
    refine iff_of_false (Value.not_isDocument_of_head? ?_) nofun
    obtain ⟨code, text, rfl⟩ := h line List.mem_cons_self
    rw [List.cons_append, toList_linesText_cons]
    simp [Terminal.paint, Terminal.sequence, String.toList_append]

end Text

section Changes

theorem announces_detectorFor {path : Value} {d : Detector}
    (h : outcome (detectorFor settings path) w = (.ok d, w₁)) : w.Announces w₁ := by
  obtain ⟨store, _, hstore, h⟩ := exists_of_outcome_bind h
  obtain ⟨lookbackHours, _, hlookback, h⟩ := exists_of_outcome_bind h
  obtain ⟨lookahead, _, hlookahead, h⟩ := exists_of_outcome_bind h
  rw [outcome_ofExcept] at hstore hlookback hlookahead
  obtain ⟨-, rfl⟩ := Prod.mk.inj hstore
  obtain ⟨-, rfl⟩ := Prod.mk.inj hlookback
  obtain ⟨-, rfl⟩ := Prod.mk.inj hlookahead
  exact Detector.announces_start h

theorem proceeds_detectCommits [Nesting.Room] (d : Detector) (span : Option Lookback) :
    Run.Proceeds (detectCommits d span) := by
  cases span with
  | none =>
    exact (Detection.Proceeds.startingAt Detector.proceeds_detectSinceLast d).bind fun _ => .pure _
  | some span =>
    exact (Detection.Proceeds.startingAt (Detector.proceeds_detectRecent span) d).bind fun _ =>
      .pure _

theorem announces_detect [Nesting.Room] {path : Value} {d : Detector} {span : Option Lookback}
    {found : List Commit} (hdetector : outcome (detectorFor settings path) w = (.ok d, w₁))
    (hfound : outcome (detectCommits d span) w₁ = (.ok found, left)) : w.Announces left := by
  have hproceeds := proceeds_detectCommits d span w₁
  rw [hfound] at hproceeds
  exact (announces_detectorFor hdetector).trans_proceeds hproceeds

/-- A document of the commits that are found is printed. -/
theorem outcome_reportChanges [Nesting.Room] {d : Detector} {found : List Commit}
    (hjson : o.json = true)
    (hpath : (settings.designSystemPath w.designSystemVariable).isGiven = true)
    (hdetector :
      outcome (detectorFor settings (settings.designSystemPath w.designSystemVariable)) w =
        (.ok d, w₁))
    (hfound : outcome (detectCommits d o.recent) w₁ = (.ok found, left)) :
    outcome (reportChanges settings o) w =
      outcome (Run.printDocument (Commit.listing found)) left := by
  unfold reportChanges
  rw [outcome_bind_of_ok (outcome_get w)]
  dsimp only
  rw [if_pos hpath, outcome_bind_of_ok hdetector, outcome_bind_of_ok hfound, if_pos hjson]

end Changes

section Scans

variable {results : List ScanResult} {report : Report}

theorem proceeds_writeFiles [Nesting.Room] (settings : Settings) (o : Options)
    (results : List ScanResult) :
    Run.Proceeds (writeFiles settings o results) := by
  have hdocument := (Report.proceeds_writeDocument results settings.outputPath).discard
  have hpage := (Report.proceeds_writePage results settings.outputPath).discard
  unfold writeFiles
  cases o.noReport <;> cases o.htmlReport
  · exact hdocument.bind fun _ => .pure ()
  · exact hdocument.bind fun _ => hpage
  · exact .pure ()
  · exact hpage

/-- Prints the report on results as a document. -/
def printReport [Nesting.Room] (results : List ScanResult) : Run Unit := do
  let report ← Run.ofExcept (Report.collect (← get).now results)
  Run.printDocument report.toValue

/-- The files are written first, and then the report is printed as a document. -/
theorem reportResults_eq [Nesting.Room] (hjson : o.json = true) :
    reportResults settings o results =
      writeFiles settings o results >>= fun _ => printReport results := by
  unfold reportResults writeFiles printReport
  rw [hjson]
  cases o.noReport <;> cases o.htmlReport <;> simp

/-- The report is printed, unless there is none or the files break it off. -/
theorem exists_ended_reportResults [Nesting.Room] (settings : Settings) (results : List ScanResult)
    (w : World)
    (hjson : o.json = true) :
    ∃ u, w.Proceeds u ∧
      outcome (reportResults settings o results) w =
        ended u (reportAfterFiles settings o results w) := by
  have hproceeds := proceeds_writeFiles settings o results w
  rw [reportResults_eq hjson]
  unfold reportAfterFiles
  rcases hfiles : outcome (writeFiles settings o results) w with ⟨e | ⟨⟩, u⟩
  · rw [hfiles] at hproceeds
    exact ⟨u, hproceeds, outcome_bind_of_error hfiles _⟩
  · rw [hfiles] at hproceeds
    refine ⟨u, hproceeds, ?_⟩
    obtain ⟨lines, hlines⟩ := hproceeds
    have hnow : u.now = w.now := World.now_of_setting hlines.setting
    have hreport := outcome_ofExcept (Report.collect w.now results) u
    rw [outcome_bind_of_ok hfiles]
    unfold printReport
    rw [outcome_bind_of_ok (outcome_get u), hnow]
    cases hbuilt : Report.collect w.now results with
    | ok report =>
      rw [hbuilt] at hreport
      exact outcome_bind_of_ok hreport _
    | error e =>
      rw [hbuilt] at hreport
      exact outcome_bind_of_error hreport _

/-- An answer is no fault of the configuration. -/
theorem outcome_orTell_of_ok {x : Run α} {a : α} (h : outcome x w = (.ok a, left)) :
    outcome (orTell x) w = (.ok (some a), left) :=
  outcome_recover_of_ok (outcome_bind_of_ok h _) _ _

/-- Repositories that are selected are scanned, and there is a report on the results. -/
theorem outcome_reportScans [Nesting.Room] {repositories : List Repository} {scanner : Scanner}
    (hselect : outcome (Repository.select settings o.directory o.team) w = (.ok repositories, w₁))
    (hsome : repositories ≠ []) (hscanner : Scanner.ofSettings settings o.preset = .ok scanner)
    (hscan : outcome (scanner.scanAll repositories) w₁ = (.ok results, w₂)) :
    outcome (reportScans settings o) w = outcome (reportResults settings o results) w₂ := by
  have hprepared : outcome (do
      let repositories ← Repository.select settings o.directory o.team
      let scanner ← Run.ofExcept (Scanner.ofSettings settings o.preset)
      pure (repositories, scanner)) w = (.ok (repositories, scanner), w₁) := by
    rw [outcome_bind_of_ok hselect, hscanner]
    rfl
  obtain ⟨r, rs, rfl⟩ := List.exists_cons_of_ne_nil hsome
  unfold reportScans
  rw [outcome_bind_of_ok (outcome_orTell_of_ok hprepared)]
  exact outcome_bind_of_ok hscan _

/-- The scan announces itself after the selection. -/
theorem announces_scan [Nesting.Room] {repositories : List Repository} {scanner : Scanner}
    (hselect : outcome (Repository.select settings o.directory o.team) w = (.ok repositories, w₁))
    (hscan : outcome (scanner.scanAll repositories) w₁ = (.ok results, w₂)) : w.Announces w₂ := by
  have hselected := Repository.proceeds_select settings o.directory o.team w
  have hscanned := scanner.announces_scanAll repositories w₁
  rw [hselect] at hselected
  rw [hscan] at hscanned
  exact hselected.trans_announces hscanned

end Scans

section Calls

variable {arguments : List String} {found : Except Failure Value}

/-- Settings that are loaded are used for what the options ask for. -/
theorem outcome_perform [Nesting.Room]
    (hload : (outcome (Settings.load o.config) (o.begin w)).1 = .ok settings) :
    outcome (perform o) w = outcome
      (if o.asksForChanges = true then reportChanges settings o else reportScans settings o)
      (o.begin w) := by
  have hloaded : outcome (Settings.load o.config) (o.begin w) = (.ok settings, o.begin w) := by
    rw [Settings.outcome_load] at hload ⊢
    exact Prod.ext hload rfl
  unfold perform
  rw [outcome_bind_of_ok (outcome_modify _ w)]
  exact outcome_bind_of_ok (outcome_orTell_of_ok hloaded) _

/-- What there is to print is printed after lines about progress. -/
theorem exists_ended_perform [Nesting.Room] (hjson : o.json = true)
    (h : Finds o (o.begin w) found) :
    ∃ u, (o.begin w).Announces u ∧ outcome (perform o) w = ended u found := by
  cases h with
  | commits hload hasks hpath hdetector hfound =>
    refine ⟨_, announces_detect hdetector hfound, ?_⟩
    rw [outcome_perform hload, if_pos hasks]
    exact outcome_reportChanges hjson hpath hdetector hfound
  | @results settings repositories scanner w₁ w₂ results hload hasks hselect hsome hscanner hscan =>
    obtain ⟨u, hproceeds, hended⟩ := exists_ended_reportResults settings results w₂ hjson
    refine ⟨u, (announces_scan hselect hscan).trans_proceeds hproceeds, ?_⟩
    rw [outcome_perform hload, if_neg (by simp [hasks]),
      outcome_reportScans hselect hsome hscanner hscan, hended]

/-- A call with the option for JSON before the mark, and with something to print, writes lines about
its progress and after them one document, unless there is no report, the writing of a report to a
file breaks it off, or a whole number in the document cannot be written. There are no such lines
exactly when progress is kept back, and exactly then all that is written is a document. -/
theorem ending_call [Nesting.Room] (hjson : "--json" ∈ arguments.takeWhile (· ≠ "--"))
    (ho : Options.ofArguments arguments = .ok o) (h : Finds o (o.begin w) found) :
    Ending o w found (outcome (call arguments) w) := by
  have hon : o.json = true :=
    Options.isOn_of_ofArguments (show OptionName.isSwitch .json = true from rfl) (by decide) hjson
      ho
  have hcall : call arguments = perform o >>= fun _ => pure successCode := by
    unfold call
    rw [ho]
  obtain ⟨u, ⟨progress, hshows, hnone⟩, hended⟩ := exists_ended_perform hon h
  have hquiet : progress = [] ↔ o.quiet = true := by
    rw [hnone]
    simp [Options.begin]
  rw [hcall]
  cases found with
  | ok document =>
    replace hended : outcome (perform o) w = outcome (Run.printDocument document) u := hended
    by_cases hwritable : document.IsWritable
    · rw [outcome_printDocument_of_isWritable hwritable] at hended
      rw [outcome_bind_of_ok hended]
      refine .told hwritable hquiet ?_ ((isDocument_linesText_iff hshows.painted).trans hquiet)
      rw [World.printed, hshows.output, List.append_assoc]
      rfl
    · rw [outcome_printDocument_of_not_isWritable hwritable] at hended
      rw [outcome_bind_of_error hended]
      exact .unwritten hwritable hquiet hshows.output
  | error e =>
    rw [outcome_bind_of_error hended]
    exact .brokenOff hquiet hshows.output

/-- A call that ends in order had a document to print. -/
theorem Ending.exists_document {r : Except Failure Nat × World} (h : Ending o w found r)
    (hr : r.1.toOption.isSome = true) : ∃ document, found = .ok document := by
  cases h with
  | told => exact ⟨_, rfl⟩
  | unwritten | brokenOff => cases hr

/-- A directory that is given is scanned, and there is something to print if the scan gives
results. -/
theorem exists_finds_of_directory [Nesting.Room] {directory : String}
    (hload : (outcome (Settings.load o.config) w).1 = .ok settings)
    (hasks : o.asksForChanges = false) (hdirectory : o.directory = some directory)
    (hne : directory ≠ "") (hscans : (do
      let scanner ← Scanner.ofSettings settings o.preset
      (outcome (scanner.scanAll [.inDirectory w.workingDirectory directory]) w).1).toOption.isSome =
        true) :
    ∃ found, Finds o w found := by
  obtain ⟨results, hresults⟩ := Option.isSome_iff_exists.mp hscans
  obtain ⟨scanner, hscanner, hscan⟩ := bind_eq_ok_iff.mp (eq_ok_of_toOption hresults)
  obtain ⟨left, hleft⟩ := exists_outcome_of_toOption (congrArg Except.toOption hscan)
  have hselect : outcome (Repository.select settings o.directory o.team) w =
      (.ok [.inDirectory w.workingDirectory directory], w) := by
    have hgiven : o.directory.filter (· ≠ "") = some directory := by
      rw [hdirectory]
      exact Option.filter_eq_some_iff.mpr ⟨rfl, decide_eq_true hne⟩
    unfold Repository.select
    rw [hgiven]
    rfl
  exact ⟨_, .results hload hasks hselect (List.cons_ne_nil _ _) hscanner hleft⟩

/-- A call that scans a directory and keeps back progress. -/
def quietScan : List String := ["--json", "--quiet", "--no-report", "/repo"]

/-- What such a call asks for. -/
def quietScanOptions : Options :=
  { Options.none with directory := some "/repo", json := true, noReport := true, quiet := true }

/-- There is a report on the results of the scan, and the call ends with it. -/
theorem ending_call_quietScan :
    "--json" ∈ quietScan.takeWhile (· ≠ "--") ∧
      Options.ofArguments quietScan = .ok quietScanOptions ∧
      ∃ report, Finds quietScanOptions
          (quietScanOptions.begin (World.ofFiles Scanner.oneStylesheet)) (.ok report) ∧
        Ending quietScanOptions (World.ofFiles Scanner.oneStylesheet) (.ok report)
          (outcome (call quietScan) (World.ofFiles Scanner.oneStylesheet)) := by
  have hload : (outcome (Settings.load none)
      (quietScanOptions.begin (World.ofFiles Scanner.oneStylesheet))).1 = .ok ⟨[]⟩ := rfl
  obtain ⟨found, hfinds⟩ := exists_finds_of_directory (o := quietScanOptions) hload rfl rfl
    (by decide) (by decide +kernel)
  have hjson : "--json" ∈ quietScan.takeWhile (· ≠ "--") := by decide
  have hending := ending_call hjson rfl hfinds
  obtain ⟨report, rfl⟩ := hending.exists_document (by decide +kernel)
  exact ⟨hjson, rfl, report, hfinds, hending⟩

/-- If the option for JSON is among its arguments, all that a call writes is the document that there
is to print. -/
def WritesDocumentOnly [Nesting.Room] (arguments : List String) (w : World) : Prop :=
  "--json" ∈ arguments → ∀ o found, Options.ofArguments arguments = .ok o →
    Finds o (o.begin w) found → ∃ document left,
      found = .ok document ∧ outcome (call arguments) w = (.ok successCode, left) ∧
        left.output = w.output ++ [document.written]

/-- A world in which the path to the design system leads nowhere. -/
def designWorld : World := { World.ofFiles ⟨[]⟩ with designSystemVariable := some "/design" }

/-- No commits are found in a design system that is not there, and that is something to print. -/
theorem exists_finds_designWorld (hconfig : o.config = none) (hchanges : o.changes = true)
    (hrecent : o.recent = none) :
    ∃ found, Finds o (o.begin designWorld) (.ok (Commit.listing found)) := by
  have hdetects : ∀ verbose, (outcome (detectorFor ⟨[]⟩ (.text "/design") >>= fun d =>
      detectCommits d none) { designWorld with verbose := verbose }).1.toOption.isSome = true := by
    decide +kernel
  obtain ⟨found, hfound⟩ := Option.isSome_iff_exists.mp (hdetects (!o.quiet))
  obtain ⟨left, hleft⟩ := exists_outcome_of_toOption hfound
  obtain ⟨d, w₁, hdetector, hcommits⟩ := exists_of_outcome_bind hleft
  have hload : ∀ verbose, (outcome (Settings.load none)
      { designWorld with verbose := verbose }).1 = .ok ⟨[]⟩ := by
    intro verbose
    cases verbose <;> rfl
  exact ⟨found, .commits (hconfig ▸ hload (!o.quiet)) (by simp [Options.asksForChanges, hchanges])
    rfl hdetector (hrecent ▸ hcommits)⟩

/-- A world with a file where the directory for reports would be. -/
def blockedWorld : World := World.ofFiles ⟨[(["scan-reports"], .file [])]⟩

/-- Not every call with the option for JSON writes the document only: there are lines about
progress before it, or the option stands after the mark, or the report cannot be written to its
file. -/
theorem not_writesDocumentOnly :
    ¬WritesDocumentOnly ["--json", "--changes"] designWorld ∧
      ¬WritesDocumentOnly ["--quiet", "--changes", "--", "--json"] designWorld ∧
      ¬WritesDocumentOnly ["--json", "--quiet", "/gone"] blockedWorld := by
  refine ⟨fun h => ?_, fun h => ?_, fun h => ?_⟩
  · obtain ⟨found, hfinds⟩ := exists_finds_designWorld
      (o := { Options.none with json := true, changes := true }) rfl rfl rfl
    obtain ⟨document, left, -, hcall, houtput⟩ := h (by decide) _ _ rfl hfinds
    have hlines : (outcome (call ["--json", "--changes"]) designWorld).2.output.length = 2 := by
      decide +kernel
    rw [hcall, houtput] at hlines
    cases hlines
  · obtain ⟨found, hfinds⟩ := exists_finds_designWorld
      (o := { Options.none with directory := some "--json", changes := true, quiet := true })
      rfl rfl rfl
    obtain ⟨document, left, hdocument, hcall, houtput⟩ := h (by decide) _ _ rfl hfinds
    have hlines : (outcome (call ["--quiet", "--changes", "--", "--json"]) designWorld).2.output =
        [Commit.overview []] := by
      decide +kernel
    rw [hcall, houtput, ← Except.ok.inj hdocument] at hlines
    have hfirst : (Commit.listing found).written.toList.head? = some '\x7b' := by
      simp [Commit.listing, Value.written, Value.piecesAt, Value.textOf, Value.Piece.written]
    rw [(List.cons.inj hlines).1] at hfirst
    revert hfirst
    decide
  · have hload : (outcome (Settings.load none) blockedWorld).1 = .ok ⟨[]⟩ := rfl
    obtain ⟨found, hfinds⟩ := exists_finds_of_directory
      (o := { Options.none with directory := some "/gone", json := true, quiet := true })
      hload rfl rfl (by decide) (by decide +kernel)
    obtain ⟨document, left, -, hcall, -⟩ := h (by decide) _ _ rfl hfinds
    have hfails : (outcome (call ["--json", "--quiet", "/gone"]) blockedWorld).1.toOption.isNone =
        true := by
      decide +kernel
    rw [hcall] at hfails
    cases hfails

end Calls

end DesignTokens.CommandLine
