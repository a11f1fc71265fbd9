import DesignTokens.CommandLine.Program
import DesignTokens.Proofs.History.Search
import DesignTokens.Proofs.Progress
import DesignTokens.Proofs.Scan.Entries
import DesignTokens.Proofs.Settings.Load

/-!
# Progress of the program

None of the parts of the program prints anything but lines about its progress: neither the
detection of changes nor the scan of repositories, neither the reading of settings nor the writing
of reports. A detector and a scan announce themselves: where progress is shown, there is a line
about it.
-/

namespace DesignTokens

variable {α β : Type}

namespace World

/-- From one world to the other nothing is printed but lines about progress, at least one unless
progress is not shown. -/
def Announces (w w' : World) : Prop :=
  ∃ lines, w.Shows w' lines ∧ (lines = [] ↔ w.verbose = false)

variable {w w₁ w₂ : World}

/-- A painted line about progress is announced. -/
theorem Announces.said (w : World) {line : String} (hline : Terminal.IsPainted line) :
    w.Announces (w.said line) := by
  refine ⟨_, .said w hline, ?_⟩
  cases w.verbose <;> simp

/-- More lines about progress may follow an announcement. -/
theorem Announces.trans_proceeds (h : w.Announces w₁) (h' : w₁.Proceeds w₂) : w.Announces w₂ := by
  obtain ⟨lines, hlines, hnone⟩ := h
  obtain ⟨more, hmore⟩ := h'
  have hall := hlines.trans hmore
  refine ⟨lines ++ more, hall, fun hnil => ?_, hall.quiet⟩
  exact hnone.mp (List.append_eq_nil_iff.mp hnil).1

/-- Lines about progress may come before an announcement. -/
theorem Proceeds.trans_announces (h : w.Proceeds w₁) (h' : w₁.Announces w₂) : w.Announces w₂ := by
  obtain ⟨lines, hlines⟩ := h
  obtain ⟨more, hmore, hnone⟩ := h'
  have hall := hlines.trans hmore
  refine ⟨lines ++ more, hall, fun hnil => ?_, hall.quiet⟩
  rw [← verbose_of_setting hlines.setting]
  exact hnone.mp (List.append_eq_nil_iff.mp hnil).2

end World

namespace PointerStore

/-- Loading the pointer prints nothing but progress. -/
theorem proceeds_load (store : PointerStore) : Run.Proceeds store.load := by
  cases store with
  | abstract => exact .throw _
  | memory held => exact .pure held
  | nowhere halves => exact .pure none
  | file path =>
    refine (Run.proceeds_findPath path).bind fun found => ?_
    cases found with
    | false => exact .pure none
    | true =>
      refine Advances.recover ?_ _ fun e => (Run.Proceeds.warn _).bind fun _ => .pure none
      exact (Run.proceeds_readText path).bind fun text => .pure _

/-- Making the directories above a path prints nothing. -/
theorem proceeds_makeAbove (root : String) (levels : Nat) (reversed : List String) :
    Run.Proceeds (makeAbove root levels reversed) := by
  induction levels generalizing reversed with
  | zero => exact .throw _
  | succ levels ih =>
    cases reversed with
    | nil => exact Run.proceeds_makeDirectory _ true
    | cons name above =>
      refine (Run.proceeds_makeDirectory _ true).recover _ fun e => ?_
      exact (ih above).bind fun _ => Run.proceeds_makeDirectory _ true

/-- Saving the pointer prints nothing but progress. -/
theorem proceeds_save [Nesting.Room] (store : PointerStore) (hash : String) :
    Run.Proceeds (store.save hash) := by
  cases store with
  | abstract => exact .throw _
  | memory held => exact .pure _
  | nowhere halves => exact .throw _
  | file path =>
    have hsave : Run.Proceeds (saveTo path hash) :=
      (proceeds_makeAbove _ _ _).bind fun _ => Run.proceeds_writeText path _
    exact (hsave.recover _ fun e => Run.Proceeds.warn _).bind fun _ => .pure _

end PointerStore

namespace Detection

/-- A detection that prints nothing but lines about progress. -/
abbrev Proceeds (x : Detection α) : Prop := DesignTokens.Proceeds Prod.snd x

namespace Proceeds

theorem detector : Detection.Proceeds detector := fun s => .refl s.2

theorem put (d : Detector) : Detection.Proceeds (put d) := fun s => .refl s.2

/-- A run inside a detection prints what it prints on its own. -/
theorem ofRun {x : Run α} (h : Run.Proceeds x) : Detection.Proceeds (ofRun x) := fun s => h s.2

/-- A detection started with a detector prints what it prints on its own. -/
theorem startingAt {x : Detection α} (h : Detection.Proceeds x) (d : Detector) :
    Run.Proceeds (startingAt d x) := fun w => h (d, w)

end Proceeds

end Detection

namespace Detector

open Detection

/-- Opening a repository prints nothing but progress. -/
theorem proceeds_openRepository (d : Detector) : Run.Proceeds d.openRepository := by
  refine Run.Proceeds.read fun w => (Run.Proceeds.ofExcept _).bind fun found => ?_
  cases found with
  | false => exact (Run.Proceeds.warn _).bind fun _ => .pure false
  | true =>
    refine ((Run.Proceeds.ask _).discard.bind fun _ => .pure true).recover _ fun _ => ?_
    exact (Run.Proceeds.warn _).bind fun _ => .pure false

/-- A command with a value in place of its answer, and a warning, where it fails. -/
theorem proceeds_asked (call : GitCall) (f : String → α) (fault : Failure → Bool)
    (line : Failure → String) (a : α) :
    Run.Proceeds (Run.recover fault (do return f (← Run.ask call)) fun e => do
      Run.warn (line e)
      pure a) :=
  ((Run.Proceeds.ask call).bind fun text => .pure (f text)).recover fault fun e =>
    (Run.Proceeds.warn (line e)).bind fun _ => .pure a

/-- Reading a change of a file prints nothing but progress. -/
theorem proceeds_fileChange (lookahead : Int) (hash : String) (status : List Char)
    (path : String) : Run.Proceeds (fileChange lookahead hash status path) := by
  unfold fileChange
  cases FileChangeKind.ofStatus status with
  | modified =>
    have hdiff : Run.Proceeds (diffOf hash path) :=
      (Run.Proceeds.ask _).recover _ fun e => (Run.Proceeds.warn _).bind fun _ => .pure ""
    exact hdiff.bind fun diff => (Run.Proceeds.ofExcept _).bind fun changes => .pure _
  | added => exact .pure _
  | deleted => exact .pure _

/-- A search prints nothing but progress if its steps do. -/
theorem isInherited_proceeds : IsInherited Run.Proceeds where
  value := .pure
  bind := .bind
  say := .say
  asked f line a _ := proceeds_asked _ f _ line a
  fileChange := proceeds_fileChange

/-- Moving the pointer prints nothing but progress. -/
theorem proceeds_advance [Nesting.Room] (hash : String) : Detection.Proceeds (advance hash) := by
  refine Proceeds.detector.bind fun d => ?_
  refine (Proceeds.ofRun (d.store.proceeds_save hash)).bind fun store => ?_
  refine (Proceeds.put _).bind fun _ => (Proceeds.put _).bind fun _ => ?_
  exact Proceeds.ofRun (Run.Proceeds.say _ _)

/-- A report prints nothing but progress if its body does. -/
theorem proceeds_reporting {body : Detection (List Commit)} (h : Detection.Proceeds body)
    (what : String) : Detection.Proceeds (reporting what body) :=
  h.recover _ fun _ => (Proceeds.ofRun (Run.Proceeds.warn _)).bind fun _ => .pure []

theorem proceeds_reportUpTo [Nesting.Room] (d : Detector) (latest : Option String) :
    Detection.Proceeds (d.reportUpTo latest) := by
  cases latest with
  | none => exact (Proceeds.ofRun (Run.Proceeds.warn _)).bind fun _ => .pure []
  | some latest =>
    refine (Proceeds.ofRun (isInherited_proceeds.commitsUpTo d latest)).bind fun found => ?_
    split
    · exact .pure found
    · exact (proceeds_advance latest).bind fun _ => .pure found

/-- A look for commits after the pointer prints nothing but progress. -/
theorem proceeds_detectSinceLast [Nesting.Room] : Detection.Proceeds detectSinceLast := by
  refine proceeds_reporting (Proceeds.detector.bind fun d => ?_) _
  refine (Proceeds.ofRun d.proceeds_openRepository).bind fun opened => ?_
  cases opened with
  | false => exact .pure []
  | true =>
    exact (Proceeds.ofRun isInherited_proceeds.latestCommit).bind fun latest =>
      d.proceeds_reportUpTo latest

/-- A look for recent commits prints nothing but progress. -/
theorem proceeds_detectRecent (span : Lookback) : Detection.Proceeds (detectRecent span) := by
  refine proceeds_reporting (Proceeds.detector.bind fun d => ?_) _
  refine (Proceeds.ofRun d.proceeds_openRepository).bind fun opened => ?_
  cases opened with
  | false => exact .pure []
  | true =>
    exact (Proceeds.ofRun (Run.Proceeds.say _ _)).bind fun _ =>
      Proceeds.ofRun (isInherited_proceeds.commits d none _)

/-- A detector that starts tells with which commit. -/
theorem announces_start {path : Value} {store : PointerStore} {lookbackHours lookahead : Int}
    {d : Detector} {w left : World}
    (h : outcome (start path store lookbackHours lookahead) w = (.ok d, left)) :
    w.Announces left := by
  obtain ⟨pointer, w₁, hload, h⟩ := exists_of_outcome_bind h
  have hproceeds := store.proceeds_load w
  rw [hload] at hproceeds
  refine hproceeds.trans_announces ?_
  cases hgiven : given pointer with
  | none =>
    rw [hgiven, outcome_bind_of_ok (outcome_say _ w₁)] at h
    cases h
    exact .said w₁ ⟨_, _, rfl⟩
  | some hash =>
    rw [hgiven, outcome_bind_of_ok (outcome_say _ w₁)] at h
    cases h
    exact .said w₁ ⟨_, _, rfl⟩

end Detector

namespace Checkout

/-- Putting down the files of a copy prints nothing. -/
theorem proceeds_putCopy (directory : String) (files : ClonedFiles) :
    Run.Proceeds (putCopy directory files) := by
  refine .forM (fun file => ?_) files
  split
  · exact (Run.proceeds_makeDirectoriesFrom _ _).bind fun _ => Run.proceeds_writeBytes _ _
  · exact Run.proceeds_makeDirectoriesFrom _ _

/-- Cloning prints nothing but progress. -/
theorem proceeds_clone (url destination : String) (branch : Value) :
    Run.Proceeds (clone url destination branch) := by
  refine Advances.read fun w => ?_
  have hissued : w.Proceeds (w.issued (.clone url destination branch)) := ⟨[], .nothing rfl rfl⟩
  refine hissued.trans ?_
  dsimp only
  rw [outcome_bind_of_ok (outcome_set _ w)]
  split
  · exact .refl _
  · exact proceeds_putCopy _ _ _

theorem proceeds_requireOrigin : Run.Proceeds requireOrigin := by
  refine Run.Proceeds.read fun w => ?_
  split
  · exact .pure ()
  · exact .throw _

/-- Updating a copy prints nothing but progress. -/
theorem proceeds_update (directory : String) (branch : Value) :
    Run.Proceeds (update directory branch) := by
  refine (Run.Proceeds.ask _).discard.bind fun _ => proceeds_requireOrigin.bind fun _ => ?_
  refine (Run.Proceeds.ask _).discard.bind fun _ => (Run.Proceeds.ask _).discard.bind fun _ => ?_
  exact proceeds_requireOrigin.bind fun _ => (Run.Proceeds.ask _).discard

/-- Obtaining a copy prints nothing but progress, whether it is cloned or updated. -/
theorem proceeds_fetch [Nesting.Room] (directory url : String) (r : Repository) :
    Run.Proceeds (fetch directory url r) := by
  refine Run.Proceeds.read fun w => ?_
  split
  · exact (Run.Proceeds.say _ _).bind fun _ => proceeds_update _ _
  · refine (Run.Proceeds.say _ _).bind fun _ => ?_
    exact (Run.proceeds_makeDirectories _ _).bind fun _ => proceeds_clone _ _ _

/-- Preparing a repository prints nothing but progress. -/
theorem proceeds_prepare [Nesting.Room] (copies : Value) (r : Repository) :
    Run.Proceeds (prepare copies r) := by
  refine (Run.Proceeds.ofExcept _).bind fun (location, isLocal) => ?_
  cases isLocal with
  | true =>
    refine Run.Proceeds.read fun w => ?_
    dsimp only
    split
    · exact (Run.Proceeds.say _ _).bind fun _ => .pure _
    · exact .throw _
  | false =>
    refine (Run.Proceeds.ofExcept _).bind fun directory => ?_
    refine Advances.bind (Advances.recover (proceeds_fetch _ _ _) _ fun e => .throw _) fun _ => ?_
    exact .pure directory

end Checkout

namespace Scanner

variable {s : Scanner} {w left : World}

/-- A scan prints nothing but progress. -/
theorem proceeds_scan [Nesting.Room] (s : Scanner) (r : Repository) : Run.Proceeds (s.scan r) := by
  refine (Checkout.proceeds_prepare s.copies r).bind fun directory => ?_
  refine (Run.proceeds_requirePath directory).bind fun _ => Run.Proceeds.read fun w => ?_
  refine (Run.Proceeds.ofExcept _).bind fun paths => (Run.Proceeds.say _ _).bind fun _ => ?_
  refine (Run.Proceeds.ofExcept _).bind fun files => (Run.Proceeds.ofExcept _).bind fun result => ?_
  exact (Run.Proceeds.say _ _).bind fun _ => .pure result

/-- A scan whose failure becomes its result prints nothing but progress. -/
theorem proceeds_scanOrFail [Nesting.Room] (s : Scanner) (r : Repository) :
    Run.Proceeds (s.scanOrFail r) := by
  refine (Run.Proceeds.say _ _).bind fun _ => Advances.recover ?_ _ fun e => ?_
  · exact (s.proceeds_scan r).bind fun result => (Run.Proceeds.say _ _).bind fun _ => .pure result
  · exact (Run.Proceeds.warn _).bind fun _ => Run.Proceeds.read fun w => .pure _

/-- A scan announces itself, however it ends. -/
theorem announces_scanAll [Nesting.Room] (s : Scanner) (repositories : List Repository)
    (w : World) :
    w.Announces (outcome (s.scanAll repositories) w).2 := by
  rw [outcome_scanAll]
  have hsaid : w.Announces (w.said opening) := .said w ⟨_, _, rfl⟩
  exact hsaid.trans_proceeds (Advances.mapM s.proceeds_scanOrFail repositories (w.said opening))

end Scanner

namespace Report

/-- Writing the document prints nothing but progress. -/
theorem proceeds_writeDocument [Nesting.Room] (results : List ScanResult) (directory : Value) :
    Run.Proceeds (writeDocument results directory) := by
  refine (Run.Proceeds.ofExcept _).bind fun spelling => ?_
  refine (Run.proceeds_makeSpelledDirectories _ spelling).bind fun directory => ?_
  refine Run.Proceeds.read fun w => (Run.proceeds_writeText _ _).bind fun _ => ?_
  refine (Run.Proceeds.ofExcept _).bind fun report => ?_
  exact (Run.proceeds_writeDocument _ _).bind fun _ => (Run.Proceeds.say _ _).bind fun _ => .pure _

/-- Writing the page prints nothing but progress. -/
theorem proceeds_writePage [Nesting.Room] (results : List ScanResult) (directory : Value) :
    Run.Proceeds (writePage results directory) := by
  refine Run.Proceeds.read fun w => (Run.Proceeds.ofExcept _).bind fun report => ?_
  refine (Run.Proceeds.ofExcept _).bind fun spelling => ?_
  refine (Run.proceeds_makeSpelledDirectories _ spelling).bind fun directory => ?_
  split
  · exact (Run.proceeds_writeText _ _).bind fun _ => .throw _
  · exact (Run.proceeds_writeText _ _).bind fun _ => (Run.Proceeds.say _ _).bind fun _ => .pure _

end Report

namespace Repository

theorem proceeds_ofEntries (entries : List Members) :
    Run.Proceeds (ofEntries (entries.map .object)) := by
  intro w
  rw [outcome_ofEntries]
  exact ⟨[], .nothing rfl rfl⟩

/-- Choosing what to scan prints nothing but progress. -/
theorem proceeds_select (settings : Settings) (directory team : Option String) :
    Run.Proceeds (select settings directory team) := by
  unfold select
  split
  · exact Run.Proceeds.read fun w => .pure _
  · exact (Run.Proceeds.ofExcept _).bind fun entries => proceeds_ofEntries entries

end Repository

end DesignTokens
