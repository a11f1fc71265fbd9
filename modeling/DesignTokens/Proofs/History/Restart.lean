import DesignTokens.Proofs.History.Answered
import DesignTokens.Proofs.History.Printed
import DesignTokens.Proofs.Text.Blank

/-!
# Starting anew before every report

A detector over a file may be kept from one report to the next, or started anew before each. As long
as the file is left alone and takes what is written to it, the two ways report the same, ask the
same and leave the same files. The invariant is that the detector has what its store holds; then a
detector that starts is the one that was kept, and only what has been printed differs.
-/

namespace DesignTokens

/-- A request to a detector, and what others do to the files before it. -/
structure Visit where
  request : Request
  others : FileTree → FileTree

/-- The world at a visit. -/
def World.met (w : World) (v : Visit) : World := { w with files := v.others w.files }

namespace Detector

/-- The reports of one detector. -/
def serve [Nesting.Room] (d : Detector) : List Visit → Run (List (List Commit))
  | [] => pure []
  | v :: more => do
    modify fun w => w.met v
    let (found, d) ← Detection.startingAt d v.request.detect
    return found :: (← d.serve more)

/-- The reports of detectors of which each is started for one of them. -/
def serveAnew [Nesting.Room] (start : Run Detector) : List Visit → Run (List (List Commit))
  | [] => pure []
  | v :: more => do
    modify fun w => w.met v
    let d ← start
    let (found, _) ← Detection.startingAt d v.request.detect
    return found :: (← serveAnew start more)

/-- At no visit to a detector have others changed what its store holds, and the store takes every
commit. -/
def Undisturbed [Nesting.Room] (d : Detector) : List Visit → World → Prop
  | [], _ => True
  | v :: more, w =>
    (outcome d.store.load (w.met v)).1 = (outcome d.store.load w).1 ∧
      (∀ hash, d.store.Takes (w.met v) hash) ∧
      (d.turn v.request (w.met v)).after.Undisturbed more (d.turn v.request (w.met v)).left

end Detector

/-- A store in a file stays in the file. -/
theorem PointerStore.eq_of_save_file [Nesting.Room] {place hash : String} {store : PointerStore}
    {w w₁ : World}
    (h : outcome ((PointerStore.file place).save hash) w = (.ok store, w₁)) :
    store = .file place := by
  obtain ⟨_, _, -, hstore⟩ := exists_of_outcome_bind h
  exact (Except.ok.inj (congrArg Prod.fst hstore)).symm

/-- Commands fail in their own way, diffs can be read, and the commit that is checked out is told
without carriage returns. -/
structure GitService.IsOrderly (g : GitService) : Prop where
  fails : g.FailsByCommand
  readable : ∀ history hash file diff, g.answer history (.diffOf hash file) = .ok diff →
    ∀ line ∈ Text.splitOn '\n' diff.toList, DiffLine.NumberFits line
  head : ∀ history text, g.answer history .head = .ok text →
    '\r' ∉ (Text.trimString text).toList

variable {α : Type} {d : Detector} {w w₁ w' : World}

/-- What asks the version control system changes nothing else, and fails only in a way that a report
handles. -/
theorem exists_outcome_asking {x : Run α} (hspares : Run.Spares World.base x)
    (hstops : Run.StopsAtDiffs x) (hgit : w.git.IsOrderly) :
    ∃ w₁, w₁.base = w.base ∧ ((∃ a, outcome x w = (.ok a, w₁)) ∨
      ∃ e, outcome x w = (.error e, w₁) ∧ e.isGitOrFile = true) := by
  refine ⟨(outcome x w).2, hspares.kept w, ?_⟩
  obtain ⟨-, hpasses⟩ := hstops w hgit.fails
  obtain ⟨calls, -, hiff⟩ := hpasses.issued
  rcases h : outcome x w with ⟨e | a, w₁⟩
  · refine .inr ⟨e, rfl, ?_⟩
    by_contra hfault
    have hescapes : Escapes (outcome x w).1 := by
      rw [h]
      exact ⟨e, rfl, Bool.not_eq_true _ ▸ hfault⟩
    obtain ⟨earlier, hash, file, later, diff, -, hanswer, hdiff⟩ := hiff.mpr hescapes
    exact not_unreadable_iff.mpr (hgit.readable _ hash file diff hanswer) hdiff
  · exact .inl ⟨a, rfl⟩

namespace Detector

open Detection

/-- How a search for commits ends with which a report begins. -/
inductive Ends (d : Detector) (w : World) :
    Except Failure (List Commit) × Detector × World → Prop
  /-- The detector and the files stay as they are. -/
  | idle {r : Except Failure (List Commit)} {left : World} (hbase : left.base = w.base)
    (hfault : ∀ e, r = .error e → e.isGitOrFile = true) : Ends d w (r, d, left)
  /-- A commit is remembered, and the store holds it. -/
  | moved {found : List Commit} {hash : String} {left : World} (hheld : d.store.Holds left hash) :
    Ends d w (.ok found, { d with pointer := some hash }, left)

namespace Ends

private theorem failed {e : Failure} (h : e.isGitOrFile = true) (hbase : w₁.base = w.base) :
    Ends d w (.error e, d, w₁) :=
  .idle hbase fun _ he => Except.error.inj he ▸ h

private theorem found (found : List Commit) (hbase : w₁.base = w.base) :
    Ends d w (.ok found, d, w₁) :=
  .idle hbase fun _ he => nomatch he

end Ends

section Search

variable {path : Spelling} {place : String} (hpath : d.path = .text path)
  (hgit : w.git.IsOrderly)

include hpath hgit

/-- The search for the commits of a span of time changes nothing. -/
theorem ends_scanRecent (span : Lookback) : Ends d w (outcome (scanRecent span) (d, w)) := by
  obtain ⟨w₁, hbase₁, ⟨opened, hopen⟩ | ⟨e, hopen, he⟩⟩ := exists_outcome_asking
    d.spares_openRepository (stopsAtDiffs_openRepository hpath) hgit
  · unfold scanRecent
    rw [outcome_bind_of_ok outcome_detector, outcome_bind_of_ok (outcome_ofRun hopen)]
    cases opened with
    | false => exact Ends.found [] hbase₁
    | true =>
      have hsaid := (w₁.base_said (Terminal.paint Terminal.grey
        ("🔍 Getting changes from last " ++ span.text ++ " hours"))).trans hbase₁
      have hgit₁ := World.git_of_base hsaid ▸ hgit
      simp only [if_true]
      rw [outcome_bind_of_ok (outcome_ofRun (outcome_say _ w₁))]
      obtain ⟨w₂, hbase₂, ⟨found, hfound⟩ | ⟨e, hfound, he⟩⟩ := exists_outcome_asking
        (isInherited_spares.commits d none (some (since span)))
        (isInherited_stopsAtDiffs.commits d _ _) hgit₁
      · rw [outcome_ofRun hfound]
        exact Ends.found found (hbase₂.trans hsaid)
      · rw [outcome_ofRun hfound]
        exact Ends.failed he (hbase₂.trans hsaid)
  · unfold scanRecent
    rw [outcome_bind_of_ok outcome_detector, outcome_bind_of_error (outcome_ofRun hopen)]
    exact Ends.failed he hbase₁

/-- The search for new commits changes nothing, or remembers the commit that is checked out. -/
theorem ends_scanSinceLast [Nesting.Room] (hstore : d.store = .file place)
    (htakes : ∀ hash, d.store.Takes w hash) :
    Ends d w (outcome scanSinceLast (d, w)) := by
  obtain ⟨w₁, hbase₁, ⟨opened, hopen⟩ | ⟨e, hopen, he⟩⟩ := exists_outcome_asking
    d.spares_openRepository (stopsAtDiffs_openRepository hpath) hgit
  swap
  · unfold scanSinceLast
    rw [outcome_bind_of_ok outcome_detector, outcome_bind_of_error (outcome_ofRun hopen)]
    exact Ends.failed he hbase₁
  cases opened with
  | false =>
    rw [outcome_scanSinceLast_of_closed hopen]
    exact Ends.found [] hbase₁
  | true =>
    have hgit₁ := World.git_of_base hbase₁ ▸ hgit
    obtain ⟨w₂, hbase₂, ⟨latest, hhead⟩ | ⟨e, hhead, he⟩⟩ := exists_outcome_asking
      isInherited_spares.latestCommit isInherited_stopsAtDiffs.latestCommit hgit₁
    swap
    · unfold scanSinceLast
      rw [outcome_bind_of_ok outcome_detector, outcome_bind_of_ok (outcome_ofRun hopen)]
      simp only [if_true]
      rw [outcome_bind_of_error (outcome_ofRun hhead)]
      exact Ends.failed he (hbase₂.trans hbase₁)
    have hbase := hbase₂.trans hbase₁
    rw [outcome_scanSinceLast_of_opened hopen hhead]
    cases latest with
    | none =>
      rw [outcome_reportUpTo_none]
      exact Ends.found [] hbase
    | some hash =>
      obtain ⟨text, hanswer, hhash, rfl⟩ := answer_of_latestCommit hhead
      obtain ⟨rfl, hne⟩ := PointerStore.trimString_of_hashIn hhash
      have hgit₂ := World.git_of_base hbase ▸ hgit
      obtain ⟨w₃, hbase₃, ⟨found, hfound⟩ | ⟨e, hfound, he⟩⟩ := exists_outcome_asking
        (isInherited_spares.commitsUpTo d (Text.trimString text))
        (isInherited_stopsAtDiffs.commitsUpTo d _) hgit₂
      swap
      · rw [outcome_reportUpTo_of_error hfound]
        exact Ends.failed he (hbase₃.trans hbase)
      by_cases hnew : found = []
      · subst hnew
        rw [outcome_reportUpTo_of_nil hfound]
        exact Ends.found [] (hbase₃.trans hbase)
      · obtain ⟨store, w₄, hsave, hheld⟩ := PointerStore.exists_save_of_takes hne
          (Text.trimString_trimString text) (hgit₁.head _ text hanswer)
          (htakes _) (hbase₃.trans hbase)
        obtain ⟨w₅, hreport, hbase₅⟩ := exists_reportUpTo_of_save hfound hnew hsave
        obtain rfl : store = d.store := by
          rw [hstore] at hsave ⊢
          exact PointerStore.eq_of_save_file hsave
        rw [hreport]
        exact .moved (hheld.of_base hbase₅)

end Search

/-- The detector has what its store holds. -/
def InStep (d : Detector) (w : World) : Prop := (outcome d.store.load w).1 = .ok d.pointer

theorem InStep.of_base (h : d.InStep w) (hbase : w₁.base = w.base) : d.InStep w₁ :=
  (PointerStore.unlogged_load d.store w₁ w hbase).1.trans h

/-- A report is a list of commits however the search ends, and the detector has again what its store
holds. -/
theorem Ends.exists_reporting {body : Detection (List Commit)}
    (h : Ends d w (outcome body (d, w))) (hstep : d.InStep w) (what : String) :
    ∃ found pointer left, outcome (reporting what body) (d, w) =
      (.ok found, { d with pointer := pointer }, left) ∧
        InStep { d with pointer := pointer } left := by
  generalize hbody : outcome body (d, w) = ended at h
  cases h with
  | @idle r left hbase hfault =>
    cases r with
    | ok found =>
      exact ⟨found, d.pointer, left, outcome_recover_of_ok hbody _ _, hstep.of_base hbase⟩
    | error e =>
      unfold reporting
      rw [outcome_recover_of_error hbody, if_pos (hfault e rfl),
        outcome_bind_of_ok (outcome_ofRun (outcome_warn _ left))]
      exact ⟨[], d.pointer, _, rfl, hstep.of_base hbase⟩
  | moved hheld => exact ⟨_, _, _, outcome_recover_of_ok hbody _ _, hheld⟩

/-- A detector that has what its store holds reports a list of commits, and has it again
afterwards. -/
theorem exists_outcome_detect [Nesting.Room] {path : Spelling} {place : String}
    (hpath : d.path = .text path)
    (hstore : d.store = .file place) (hgit : w.git.IsOrderly)
    (htakes : ∀ hash, d.store.Takes w hash) (hstep : d.InStep w) (request : Request) :
    ∃ found pointer left, outcome request.detect (d, w) =
      (.ok found, { d with pointer := pointer }, left) ∧
        InStep { d with pointer := pointer } left := by
  cases request with
  | sinceLast =>
    exact (ends_scanSinceLast hpath hgit hstore htakes).exists_reporting hstep _
  | recent span => exact (ends_scanRecent hpath hgit span).exists_reporting hstep _

/-- A detector starts with what its store holds. -/
theorem exists_outcome_start {store : PointerStore} {pointer : Option String}
    (h : (outcome store.load w).1 = .ok pointer) (path : Value) (lookbackHours lookahead : Int) :
    ∃ w₁, outcome (start path store lookbackHours lookahead) w =
      (.ok ⟨path, store, lookbackHours, lookahead, pointer⟩, w₁) ∧
        w₁.unprinted = w.unprinted := by
  have hspares : Run.Spares id (start path store lookbackHours lookahead) := by
    refine store.spares_load.bind fun pointer => ?_
    split
    · exact (Run.Spares.say _).bind fun _ => Spares.pure _
    · exact (Run.Spares.say _).bind fun _ => Spares.pure _
  refine ⟨(outcome (start path store lookbackHours lookahead) w).2, Prod.ext ?_ rfl, hspares.kept w⟩
  rcases hload : outcome store.load w with ⟨answer, w₁⟩
  obtain rfl : answer = .ok pointer := by rw [← h, hload]
  unfold start
  rw [outcome_bind_of_ok hload]
  split
  · rw [outcome_bind_of_ok (outcome_say _ w₁)]
    rfl
  · rw [outcome_bind_of_ok (outcome_say _ w₁)]
    rfl

end Detector

theorem Detection.outcome_startingAt {x : Detection α} {a : α} {d' : Detector}
    (h : outcome x (d, w) = (.ok a, d', w₁)) :
    outcome (startingAt d x) w = (.ok (a, d'), w₁) := by
  have hrun : outcome (startingAt d x) w = ((outcome x (d, w)).1.map fun a =>
      (a, (outcome x (d, w)).2.1), (outcome x (d, w)).2.2) := rfl
  rw [hrun, h]
  rfl

namespace Detector

/-- In worlds that differ in what was printed, a detector that is kept and detectors that are
started anew report the same, and leave worlds that differ in what was printed. -/
theorem exists_outcome_serve [Nesting.Room] {path : Spelling} {place : String}
    (hpath : d.path = .text path)
    (hstore : d.store = .file place) (hgit : w.git.IsOrderly) (hstep : d.InStep w)
    (hsame : w'.unprinted = w.unprinted) {visits : List Visit} (h : d.Undisturbed visits w) :
    ∃ reports left left', outcome (d.serve visits) w = (.ok reports, left) ∧
      outcome (serveAnew (start d.path d.store d.lookbackHours d.lookahead) visits) w' =
        (.ok reports, left') ∧
      left'.unprinted = left.unprinted := by
  induction visits generalizing d w w' with
  | nil => exact ⟨[], w, w', rfl, rfl, hsame⟩
  | cons v more ih =>
    obtain ⟨hheld, htakes, hrest⟩ := h
    have hmet : (w'.met v).unprinted = (w.met v).unprinted := congrArg (fun w => w.met v) hsame
    have hgit₀ : (w.met v).git.IsOrderly := hgit
    have hstep₁ : d.InStep (w.met v) := hheld.trans hstep
    have hheld' : (outcome d.store.load (w'.met v)).1 = .ok d.pointer :=
      (d.store.spares_load.depends _ _ hmet).1.trans hstep₁
    obtain ⟨w₁, hstart, hprinted⟩ :=
      exists_outcome_start hheld' d.path d.lookbackHours d.lookahead
    obtain ⟨found, pointer, left, hdetect, hstep₂⟩ :=
      exists_outcome_detect hpath hstore hgit₀ htakes hstep₁ v.request
    have hspares := spares_detect v.request
    obtain ⟨hanswer, hleft⟩ := hspares.depends (d, w₁) (d, w.met v)
      (Prod.ext rfl (hprinted.trans hmet))
    rcases hdetect' : outcome v.request.detect (d, w₁) with ⟨answer, d₁, left'⟩
    rw [hdetect, hdetect'] at hanswer hleft
    obtain rfl : answer = .ok found := hanswer
    obtain ⟨rfl, hsame₁⟩ := Prod.mk.inj hleft
    have hgit₁ : left.git.IsOrderly := by
      have hkept := hspares.kept (d, w.met v)
      rw [hdetect] at hkept
      exact hkept ▸ hgit₀
    rw [turn_eq hdetect] at hrest
    obtain ⟨reports, last, last', hserve, hanew, hprinted₁⟩ :=
      ih (d := { d with pointer := pointer }) hpath hstore hgit₁ hstep₂ hsame₁ hrest
    refine ⟨found :: reports, last, last', ?_, ?_, hprinted₁⟩
    · rw [serve, outcome_bind_of_ok (outcome_modify _ w),
        outcome_bind_of_ok (Detection.outcome_startingAt hdetect), outcome_bind_of_ok hserve]
      rfl
    · rw [serveAnew, outcome_bind_of_ok (outcome_modify _ w'), outcome_bind_of_ok hstart,
        outcome_bind_of_ok (Detection.outcome_startingAt hdetect'), outcome_bind_of_ok hanew]
      rfl

/-- What is in a file of text, or the absence of the file, is what the store in it holds. -/
theorem exists_load_of_text {place : String}
    (h : (outcome (Run.findPath place) w).1 = .ok false ∨ ∃ text, w.textOf place = .ok text) :
    ∃ pointer, (outcome (PointerStore.file place).load w).1 = .ok pointer := by
  rcases h with habsent | ⟨text, htext⟩
  · obtain ⟨w₁, hfind⟩ := exists_outcome_of_toOption (congrArg Except.toOption habsent)
    unfold PointerStore.load
    rw [outcome_bind_of_ok hfind]
    exact ⟨none, rfl⟩
  · exact ⟨_, congrArg Prod.fst (PointerStore.outcome_load_of_textOf htext)⟩

/-- A detector over a file that is absent or a text can be kept or started anew before every
request. As long as nobody else changes what the file holds, the file takes every commit, and the
version control system is orderly, both ways report the same lists, issue the same commands and
leave the same files, whatever is asked for and however commands fail. -/
theorem exists_start_serve_eq_serveAnew [Nesting.Room] (path : Spelling) (place : String)
    (lookbackHours lookahead : Int) (hgit : w.git.IsOrderly)
    (hfile : (outcome (Run.findPath place) w).1 = .ok false ∨ ∃ text, w.textOf place = .ok text) :
    ∃ d w₁, outcome (start (.text path) (.file place) lookbackHours lookahead) w = (.ok d, w₁) ∧
      ∀ visits, d.Undisturbed visits w₁ → ∃ reports left left',
        outcome (d.serve visits) w₁ = (.ok reports, left) ∧
        outcome (serveAnew (start (.text path) (.file place) lookbackHours lookahead) visits) w =
          (.ok reports, left') ∧
        left'.calls = left.calls ∧ left'.files = left.files := by
  obtain ⟨pointer, hload⟩ := exists_load_of_text hfile
  obtain ⟨w₁, hstart, hprinted⟩ :=
    exists_outcome_start hload (.text path) lookbackHours lookahead
  refine ⟨_, w₁, hstart, fun visits hvisits => ?_⟩
  have hbase := World.base_of_unprinted hprinted
  have hgit₁ : w₁.git.IsOrderly := World.git_of_base hbase ▸ hgit
  have hstep : InStep ⟨.text path, .file place, lookbackHours, lookahead, pointer⟩ w₁ :=
    InStep.of_base (w := w) hload hbase
  obtain ⟨reports, left, left', hserve, hanew, hsame⟩ :=
    exists_outcome_serve rfl rfl hgit₁ hstep hprinted.symm hvisits
  exact ⟨reports, left, left', hserve, hanew, World.calls_of_unprinted hsame,
    World.files_of_base (World.base_of_unprinted hsame)⟩

end Detector

theorem isOrderly_redService : redService.IsOrderly where
  fails := by
    intro history call f h
    cases call <;> cases h
  readable := by
    intro history hash file diff h
    obtain rfl := Except.ok.inj h
    decide
  head := by
    intro history text h
    obtain rfl := Except.ok.inj h
    decide

/-- Two reports of new commits; between them somebody makes a directory. -/
def redVisits : List Visit :=
  [⟨.sinceLast, id⟩, ⟨.sinceLast, fun files => files.put ["notes"] .directory⟩]

/-- The detector that starts over an absent file in that repository. -/
def redDetector : Detector := ⟨.text "/", .file "/last", 24, 10, none⟩

attribute [local instance] Nesting.Room.ample

/-- The file of the last processed commit is written at the first visit and kept. -/
theorem undisturbed_redVisits : redDetector.Undisturbed redVisits redWorld := by
  have htakes (w : World)
      (h : (outcome (PointerStore.saveTo "/last" "a1") w).1.toOption = some ()) (hash : String) :
      (PointerStore.file "/last").Takes w hash := by
    have htaken : (PointerStore.file "/last").Takes w "a1" := exists_outcome_of_toOption h
    exact htaken.of_takes hash
  have hstore : (redDetector.turn .sinceLast redWorld).after.store = .file "/last" := by
    decide +kernel
  have hheld (w : World)
      (h : (outcome (PointerStore.file "/last").load w).1.toOption = some (some "a1")) :
      (outcome (PointerStore.file "/last").load w).1 = .ok (some "a1") :=
    eq_ok_of_toOption h
  refine ⟨rfl, htakes _ (by decide +kernel), ?_, ?_, trivial⟩
  · have hfirst : redWorld.met ⟨.sinceLast, id⟩ = redWorld := rfl
    rw [hfirst, hstore, hheld _ (by decide +kernel), hheld _ (by decide +kernel)]
  · have hfirst : redWorld.met ⟨.sinceLast, id⟩ = redWorld := rfl
    rw [hfirst, hstore]
    exact htakes _ (by decide +kernel)

/-- Kept or started anew, the detector reports the same and leaves the same. -/
theorem exists_reports_redVisits :
    redWorld.git.IsOrderly ∧ (outcome (Run.findPath "/last") redWorld).1 = .ok false ∧
      redDetector.Undisturbed redVisits redWorld ∧
      ∃ reports left left', outcome (redDetector.serve redVisits) redWorld = (.ok reports, left) ∧
        outcome (Detector.serveAnew (Detector.start (.text "/") (.file "/last") 24 10) redVisits)
          redWorld = (.ok reports, left') ∧
        left'.calls = left.calls ∧ left'.files = left.files := by
  have hlocate : redWorld.files.locate redWorld.directory "/last" = .error .missing := by
    decide +kernel
  have hfind : outcome (Run.findPath "/last") redWorld = (.ok false, redWorld) := by
    unfold Run.findPath
    rw [outcome_bind_of_ok (outcome_get redWorld), hlocate]
    rfl
  have hload : outcome (PointerStore.file "/last").load redWorld = (.ok none, redWorld) :=
    outcome_bind_of_ok hfind _
  have hstart : outcome (Detector.start (.text "/") (.file "/last") 24 10) redWorld =
      (.ok redDetector, redWorld) :=
    outcome_bind_of_ok hload _
  obtain ⟨d, w₁, hstart', hall⟩ := Detector.exists_start_serve_eq_serveAnew "/" "/last" 24 10
    isOrderly_redService (.inl (congrArg Prod.fst hfind))
  obtain ⟨rfl, rfl⟩ := eq_of_outcome hstart' hstart
  exact ⟨isOrderly_redService, congrArg Prod.fst hfind, undisturbed_redVisits,
    hall redVisits undisturbed_redVisits⟩

end DesignTokens
