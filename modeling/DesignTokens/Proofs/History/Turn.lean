import DesignTokens.History.Detector
import DesignTokens.Proofs.Run

/-!
# Turns of a detector

A detector is asked again and again, each time in a world of its own: between two turns the files
and the answers of the version control system may change in any way. What a turn does to the
detector is said once here: nothing, unless it reports commits since the last processed one and the
store takes the commit that is checked out.
-/

namespace DesignTokens

/-- What a detector is asked for. -/
inductive Request
  | sinceLast
  | recent (span : Lookback)
  deriving DecidableEq, Repr

/-- What a detector does when it is asked. -/
def Request.detect [Nesting.Room] : Request → Detection (List Commit)
  | .sinceLast => Detector.detectSinceLast
  | .recent span => Detector.detectRecent span

/-- A request to a detector in a world, with its answer and what it leaves. -/
structure Turn where
  request : Request
  before : Detector
  world : World
  answer : Except Failure (List Commit)
  after : Detector
  left : World

/-- The commits that a turn reports. -/
def Turn.found (t : Turn) : List Commit := t.answer.toOption.getD []

namespace Detector

/-- The turn of a detector for a request in a world. -/
def turn [Nesting.Room] (d : Detector) (request : Request) (w : World) : Turn :=
  let (answer, after, left) := outcome request.detect (d, w)
  ⟨request, d, w, answer, after, left⟩

/-- The turns of a detector for requests, each in its own world. -/
def turns [Nesting.Room] (d : Detector) : List (Request × World) → List Turn
  | [] => []
  | (request, w) :: more =>
    let t := d.turn request w
    t :: t.after.turns more

/-- A turn is what comes of its request. -/
theorem turn_eq [Nesting.Room] {d d' : Detector} {request : Request} {w w' : World}
    {answer : Except Failure (List Commit)}
    (h : outcome request.detect (d, w) = (answer, d', w')) :
    d.turn request w = ⟨request, d, w, answer, d', w'⟩ := by
  unfold turn
  rw [h]

end Detector

namespace Detection

variable {α β : Type} {d : Detector} {w w₁ : World}

/-- A run inside a detection leaves the detector alone. -/
theorem outcome_ofRun {x : Run α} {r : Except Failure α} (h : outcome x w = (r, w₁)) :
    outcome (ofRun x) (d, w) = (r, d, w₁) := by
  have hrun : outcome (ofRun x) (d, w) = ((outcome x w).1, d, (outcome x w).2) := rfl
  rw [hrun, h]

/-- A look at the detector gives the detector. -/
theorem outcome_detector : outcome detector (d, w) = (.ok d, d, w) := rfl

/-- A detector that is put in the place of another is the one that is left. -/
theorem outcome_put (d' : Detector) : outcome (put d') (d, w) = (.ok (), d', w) := rfl

/-- The detection leaves the detector as it is, whatever happens. -/
def Keeps (x : Detection α) : Prop := ∀ d w, (outcome x (d, w)).2.1 = d

namespace Keeps

/-- The detector is what the first of the two shows. -/
theorem iff_preserves {x : Detection α} : Keeps x ↔ Preserves Prod.fst x :=
  ⟨fun h s => h s.1 s.2, fun h d w => h (d, w)⟩

theorem pure (a : α) : Keeps (pure a) := fun _ _ => rfl

theorem detector : Keeps detector := fun _ _ => rfl

/-- A run inside a detection keeps the detector. -/
theorem ofRun (x : Run α) : Keeps (ofRun x) := fun _ _ => rfl

/-- Two detections that keep the detector do so one after the other. -/
theorem bind {x : Detection α} {f : α → Detection β} (hx : Keeps x) (hf : ∀ a, Keeps (f a)) :
    Keeps (x >>= f) :=
  iff_preserves.mpr ((iff_preserves.mp hx).bind fun a => iff_preserves.mp (hf a))

/-- A try keeps the detector if both its parts do. -/
theorem recover {x : Detection α} {handle : Failure → Detection α} (hx : Keeps x)
    (p : Failure → Bool) (hhandle : ∀ e, Keeps (handle e)) :
    Keeps (Run.recover p x handle) :=
  iff_preserves.mpr ((iff_preserves.mp hx).recover fun e => iff_preserves.mp (hhandle e))

end Keeps

end Detection

namespace Detector

variable {d d' : Detector} {w w₁ : World}

open Detection Terminal

/-- A report of a span of time leaves the detector as it is. -/
theorem keeps_detectRecent (span : Lookback) : Keeps (detectRecent span) := by
  refine Keeps.recover ?_ _ fun e => ?_
  · refine Keeps.detector.bind fun d => (Keeps.ofRun _).bind fun opened => ?_
    cases opened with
    | false => exact Keeps.pure []
    | true => exact (Keeps.ofRun _).bind fun _ => Keeps.ofRun _
  · exact (Keeps.ofRun _).bind fun _ => Keeps.pure []

/-- A path that leads nowhere is no repository. -/
theorem outcome_openRepository_of_absent (h : pathExists w d.path = .ok false) :
    ∃ w₁, outcome d.openRepository w = (.ok false, w₁) ∧ w₁.base = w.base := by
  have hfound : outcome (Run.ofExcept (pathExists w d.path)) w = (.ok false, w) := by
    rw [outcome_ofExcept, h]
  refine ⟨w.warned (paint yellow
    ("⚠️  Design system path not found: " ++ d.path.displayString)), ?_, rfl⟩
  unfold openRepository
  rw [outcome_bind_of_ok (outcome_get w), outcome_bind_of_ok hfound]
  exact outcome_bind_of_ok (outcome_warn _ w) _

/-- A repository that answers where the path leads to something is open. -/
theorem outcome_openRepository_of_ok {text : String} (hpath : pathExists w d.path = .ok true)
    (hopen : w.git.answer w.calls (.opened d.path) = .ok text) :
    outcome d.openRepository w = (.ok true, w.issued (.opened d.path)) := by
  have hfound : outcome (Run.ofExcept (pathExists w d.path)) w = (.ok true, w) := by
    rw [outcome_ofExcept, hpath]
  have hask : outcome (do discard (Run.ask (.opened d.path)); pure true) w =
      (.ok true, w.issued (.opened d.path)) :=
    outcome_bind_of_ok (outcome_discard_of_ok (outcome_ask_of_ok hopen)) _
  unfold openRepository
  rw [outcome_bind_of_ok (outcome_get w), outcome_bind_of_ok hfound]
  exact outcome_recover_of_ok hask _ _

/-- A repository that does not answer is not open. -/
theorem outcome_openRepository_of_error {f : GitFailure} (hpath : pathExists w d.path = .ok true)
    (hopen : w.git.answer w.calls (.opened d.path) = .error f) :
    (outcome d.openRepository w).1 ≠ .ok true := by
  have hfound : outcome (Run.ofExcept (pathExists w d.path)) w = (.ok true, w) := by
    rw [outcome_ofExcept, hpath]
  have hask : outcome (do discard (Run.ask (.opened d.path)); pure true) w =
      (.error f.cause, w.issued (.opened d.path)) :=
    outcome_bind_of_error (outcome_discard_of_error (outcome_ask_of_error hopen)) _
  unfold openRepository
  rw [outcome_bind_of_ok (outcome_get w), outcome_bind_of_ok hfound]
  simp only [if_true]
  rw [outcome_recover_of_error hask]
  by_cases hfault : isNoRepository f.cause = true
  · rw [if_pos hfault, outcome_bind_of_ok (outcome_warn _ _)]
    simp
  · rw [if_neg hfault]
    simp

/-- An open repository has been found and has answered. -/
theorem issued_of_openRepository (h : outcome d.openRepository w = (.ok true, w₁)) :
    w₁ = w.issued (.opened d.path) := by
  cases hpath : pathExists w d.path with
  | error e =>
    have hfound : outcome (Run.ofExcept (pathExists w d.path)) w = (.error e, w) := by
      rw [outcome_ofExcept, hpath]
    unfold openRepository at h
    rw [outcome_bind_of_ok (outcome_get w), outcome_bind_of_error hfound] at h
    cases h
  | ok found =>
    cases found with
    | false =>
      obtain ⟨w₂, habsent, -⟩ := outcome_openRepository_of_absent hpath
      rw [habsent] at h
      cases h
    | true =>
      cases hopen : w.git.answer w.calls (.opened d.path) with
      | error f => exact absurd (congrArg Prod.fst h) (outcome_openRepository_of_error hpath hopen)
      | ok text =>
        rw [outcome_openRepository_of_ok hpath hopen] at h
        cases h
        rfl

/-- The commit that is checked out is the answer without the white space around it. -/
theorem outcome_latestCommit_of_ok {text : String} (h : w.git.answer w.calls .head = .ok text) :
    outcome latestCommit w = (.ok (PointerStore.hashIn text), w.issued .head) := by
  have hask : outcome (do return PointerStore.hashIn (← Run.ask .head)) w =
      (.ok (PointerStore.hashIn text), w.issued .head) :=
    outcome_bind_of_ok (outcome_ask_of_ok h) _
  exact outcome_recover_of_ok hask _ _

/-- A commit is only known from the answer. -/
theorem answer_of_latestCommit {hash : String}
    (h : outcome latestCommit w = (.ok (some hash), w₁)) :
    ∃ text, w.git.answer w.calls .head = .ok text ∧ PointerStore.hashIn text = some hash ∧
      w₁ = w.issued .head := by
  cases hanswer : w.git.answer w.calls .head with
  | ok text =>
    rw [outcome_latestCommit_of_ok hanswer] at h
    obtain ⟨hhash, hworld⟩ := Prod.mk.inj h
    exact ⟨text, rfl, Except.ok.inj hhash, hworld.symm⟩
  | error f =>
    have hask : outcome (do return PointerStore.hashIn (← Run.ask .head)) w =
        (.error f.cause, w.issued .head) :=
      outcome_bind_of_error (outcome_ask_of_error hanswer) _
    unfold latestCommit at h
    rw [outcome_recover_of_error hask] at h
    by_cases hfault : f.cause.isGit = true
    · rw [if_pos hfault, outcome_bind_of_ok (outcome_warn _ _)] at h
      cases h
    · rw [if_neg hfault] at h
      cases h

/-- A hash that is not empty is one to start from. -/
theorem given_of_ne {hash : String} (h : hash ≠ "") : given (some hash) = some hash := by
  unfold given
  split
  · rename_i heq
    exact absurd (Option.some.inj heq) h
  · rfl

/-- Up to the last processed commit there is nothing new, and nothing is asked. -/
theorem exists_commitsUpTo_of_eq {hash : String} (hne : hash ≠ "")
    (hpointer : d.pointer = some hash) :
    ∃ w₁, outcome (d.commitsUpTo hash) w = (.ok [], w₁) ∧ w₁.calls = w.calls ∧
      w₁.base = w.base := by
  refine ⟨w.said (paint green "✅ No new commits since last scan"), ?_, w.calls_said _,
    w.base_said _⟩
  unfold commitsUpTo
  rw [hpointer, given_of_ne hne]
  simp only [if_true]
  exact outcome_bind_of_ok (outcome_say _ w) _

/-- A commit that the store takes is remembered in the store and in the detector. -/
theorem outcome_advance_of_ok [Nesting.Room] {hash : String} {store : PointerStore}
    (h : outcome (d.store.save hash) w = (.ok store, w₁)) :
    ∃ w₂, outcome (advance hash) (d, w) =
        (.ok (), { d with store := store, pointer := some hash }, w₂) ∧ w₂.base = w₁.base ∧
      w₂.calls = w₁.calls := by
  refine ⟨w₁.said (paint grey ("💾 Saved last processed commit: " ++ hash)), ?_, w₁.base_said _,
    w₁.calls_said _⟩
  unfold advance
  rw [outcome_bind_of_ok outcome_detector, outcome_bind_of_ok (outcome_ofRun h),
    outcome_bind_of_ok (outcome_put _), outcome_bind_of_ok (outcome_put _),
    outcome_ofRun (outcome_say _ _)]

/-- A store that refuses a commit leaves the detector as it is. -/
theorem outcome_advance_of_error [Nesting.Room] {hash : String} {e : Failure}
    (h : outcome (d.store.save hash) w = (.error e, w₁)) :
    outcome (advance hash) (d, w) = (.error e, d, w₁) := by
  unfold advance
  rw [outcome_bind_of_ok outcome_detector, outcome_bind_of_error (outcome_ofRun h)]

/-- A report that fails is empty or fails as well, and leaves what the failure leaves. -/
theorem exists_outcome_reporting_of_error (what : String) {body : Detection (List Commit)}
    {e : Failure} (h : outcome body (d, w) = (.error e, d', w₁)) :
    ∃ answer w₂, outcome (reporting what body) (d, w) = (answer, d', w₂) ∧
      ∀ found, answer = .ok found → found = [] := by
  unfold reporting
  rw [outcome_recover_of_error h]
  by_cases hfault : e.isGitOrFile = true
  · rw [if_pos hfault, outcome_bind_of_ok (outcome_ofRun (outcome_warn _ _))]
    exact ⟨.ok [], _, rfl, fun found hfound => (Except.ok.inj hfound).symm⟩
  · rw [if_neg hfault]
    exact ⟨.error e, _, rfl, fun found hfound => nomatch hfound⟩

variable [Nesting.Room]

/-- Without a repository nothing is found. -/
theorem outcome_scanSinceLast_of_closed (h : outcome d.openRepository w = (.ok false, w₁)) :
    outcome scanSinceLast (d, w) = (.ok [], d, w₁) := by
  unfold scanSinceLast
  rw [outcome_bind_of_ok outcome_detector, outcome_bind_of_ok (outcome_ofRun h)]
  rfl

/-- In an open repository the report is about the commit that is checked out. -/
theorem outcome_scanSinceLast_of_opened {latest : Option String} {w₂ : World}
    (hopen : outcome d.openRepository w = (.ok true, w₁))
    (hhead : outcome latestCommit w₁ = (.ok latest, w₂)) :
    outcome scanSinceLast (d, w) = outcome (d.reportUpTo latest) (d, w₂) := by
  unfold scanSinceLast
  rw [outcome_bind_of_ok outcome_detector, outcome_bind_of_ok (outcome_ofRun hopen)]
  simp only [if_true]
  rw [outcome_bind_of_ok (outcome_ofRun hhead)]

/-- With answers for the repository and the commit that is checked out, the report is about it. -/
theorem outcome_scanSinceLast_of_ok {opened text : String} (hpath : pathExists w d.path = .ok true)
    (hopen : w.git.answer w.calls (.opened d.path) = .ok opened)
    (hhead : w.git.answer (w.calls ++ [.opened d.path]) .head = .ok text) :
    outcome scanSinceLast (d, w) = outcome (d.reportUpTo (PointerStore.hashIn text))
      (d, (w.issued (.opened d.path)).issued .head) :=
  outcome_scanSinceLast_of_opened (outcome_openRepository_of_ok hpath hopen)
    (outcome_latestCommit_of_ok hhead)

/-- Without a commit that is checked out nothing is reported. -/
theorem outcome_reportUpTo_none :
    outcome (d.reportUpTo none) (d, w) = (.ok [], d, w.warned
      (paint yellow ("⚠️  No commits found in " ++ d.path.displayString))) := by
  unfold reportUpTo
  rw [outcome_bind_of_ok (outcome_ofRun (outcome_warn _ _))]
  rfl

section Reported

variable {hash : String} {found : List Commit} {w₂ : World}

/-- A search that fails leaves the detector as it is. -/
theorem outcome_reportUpTo_of_error {e : Failure}
    (h : outcome (d.commitsUpTo hash) w = (.error e, w₁)) :
    outcome (d.reportUpTo (some hash)) (d, w) = (.error e, d, w₁) :=
  outcome_bind_of_error (outcome_ofRun h) _

/-- Without a new commit the detector stays as it is. -/
theorem outcome_reportUpTo_of_nil (h : outcome (d.commitsUpTo hash) w = (.ok [], w₁)) :
    outcome (d.reportUpTo (some hash)) (d, w) = (.ok [], d, w₁) := by
  unfold reportUpTo
  rw [outcome_bind_of_ok (outcome_ofRun h)]
  rfl

/-- New commits are followed by an attempt to remember the one that is checked out. -/
theorem outcome_reportUpTo_of_ne_nil (h : outcome (d.commitsUpTo hash) w = (.ok found, w₁))
    (hne : found ≠ []) :
    outcome (d.reportUpTo (some hash)) (d, w) =
      outcome (do advance hash; pure found : Detection (List Commit)) (d, w₁) := by
  have hempty : found.isEmpty = false := List.isEmpty_eq_false_iff.mpr hne
  unfold reportUpTo
  rw [outcome_bind_of_ok (outcome_ofRun h), hempty]
  rfl

/-- New commits are reported, and the one that is checked out is remembered if the store takes
it. -/
theorem exists_reportUpTo_of_save {store : PointerStore}
    (h : outcome (d.commitsUpTo hash) w = (.ok found, w₁)) (hne : found ≠ [])
    (hsave : outcome (d.store.save hash) w₁ = (.ok store, w₂)) :
    ∃ w₃, outcome (d.reportUpTo (some hash)) (d, w) =
        (.ok found, { d with store := store, pointer := some hash }, w₃) ∧ w₃.base = w₂.base := by
  obtain ⟨w₃, hadvance, hbase, -⟩ := outcome_advance_of_ok hsave
  have hreport := outcome_reportUpTo_of_ne_nil h hne
  rw [outcome_bind_of_ok hadvance] at hreport
  exact ⟨w₃, hreport, hbase⟩

end Reported

/-- Without a repository the report is empty, whatever is asked for. -/
theorem outcome_detect_of_closed (request : Request)
    (h : outcome d.openRepository w = (.ok false, w₁)) :
    outcome request.detect (d, w) = (.ok [], d, w₁) := by
  cases request with
  | sinceLast => exact outcome_recover_of_ok (outcome_scanSinceLast_of_closed h) _ _
  | recent span =>
    refine outcome_recover_of_ok ?_ _ _
    unfold scanRecent
    rw [outcome_bind_of_ok outcome_detector, outcome_bind_of_ok (outcome_ofRun h)]
    rfl

/-- How a report of the commits since the last processed one ends, and the detector it leaves. -/
inductive SinceLast (d : Detector) (w : World) : Except Failure (List Commit) → Detector → Prop
  /-- Nothing is reported, and the detector stays as it is. -/
  | idle {answer : Except Failure (List Commit)} (h : ∀ found, answer = .ok found → found = []) :
    SinceLast d w answer d
  /-- Commits are reported, and the store has taken the one that is checked out. -/
  | moved {text hash : String} {found : List Commit} {store : PointerStore} {w₁ w₂ : World}
    (hhead : w.git.answer (w.calls ++ [.opened d.path]) .head = .ok text)
    (hhash : PointerStore.hashIn text = some hash)
    (hfound : outcome (d.commitsUpTo hash) ((w.issued (.opened d.path)).issued .head) =
      (.ok found, w₁))
    (hne : found ≠ []) (hsave : outcome (d.store.save hash) w₁ = (.ok store, w₂)) :
    SinceLast d w (.ok found) { d with store := store, pointer := some hash }

namespace SinceLast

/-- What holds of an outcome holds of its parts. -/
private theorem of_outcome {x : Detection (List Commit)} {answer : Except Failure (List Commit)}
    (h : outcome x (d, w) = (answer, d', w₁)) (hs : SinceLast d w answer d') :
    SinceLast d w (outcome x (d, w)).1 (outcome x (d, w)).2.1 := by
  rw [h]
  exact hs

/-- A failed look leaves the detector as it is. -/
private theorem failed (e : Failure) : SinceLast d w (.error e) d :=
  idle fun _ h => nomatch h

/-- A look that finds nothing may leave the detector as it is. -/
private theorem nothing : SinceLast d w (.ok []) d :=
  idle fun _ h => (Except.ok.inj h).symm

/-- The search for commits ends in one of the two ways. -/
theorem scan (d : Detector) (w : World) :
    SinceLast d w (outcome scanSinceLast (d, w)).1 (outcome scanSinceLast (d, w)).2.1 := by
  rcases hopen : outcome d.openRepository w with ⟨e | opened, w₁⟩
  · have hscan : outcome scanSinceLast (d, w) = (.error e, d, w₁) := by
      unfold scanSinceLast
      rw [outcome_bind_of_ok outcome_detector, outcome_bind_of_error (outcome_ofRun hopen)]
    exact of_outcome hscan (failed e)
  cases opened with
  | false => exact of_outcome (outcome_scanSinceLast_of_closed hopen) nothing
  | true =>
    have hw₁ := issued_of_openRepository hopen
    rcases hhead : outcome latestCommit w₁ with ⟨e | latest, w₂⟩
    · have hscan : outcome scanSinceLast (d, w) = (.error e, d, w₂) := by
        unfold scanSinceLast
        rw [outcome_bind_of_ok outcome_detector, outcome_bind_of_ok (outcome_ofRun hopen)]
        exact outcome_bind_of_error (outcome_ofRun hhead) _
      exact of_outcome hscan (failed e)
    have hscan := outcome_scanSinceLast_of_opened hopen hhead
    cases latest with
    | none => exact of_outcome (hscan.trans outcome_reportUpTo_none) nothing
    | some hash =>
      obtain ⟨text, hanswer, hhash, hw₂⟩ := answer_of_latestCommit hhead
      rcases hfound : outcome (d.commitsUpTo hash) w₂ with ⟨e | found, w₃⟩
      · exact of_outcome (hscan.trans (outcome_reportUpTo_of_error hfound)) (failed e)
      by_cases hne : found = []
      · subst hne
        exact of_outcome (hscan.trans (outcome_reportUpTo_of_nil hfound)) nothing
      rcases hsave : outcome (d.store.save hash) w₃ with ⟨e | store, w₄⟩
      · have hreport := outcome_reportUpTo_of_ne_nil hfound hne
        rw [outcome_bind_of_error (outcome_advance_of_error hsave)] at hreport
        exact of_outcome (hscan.trans hreport) (failed e)
      · obtain ⟨w₅, hreport, -⟩ := exists_reportUpTo_of_save hfound hne hsave
        subst hw₁ hw₂
        exact of_outcome (hscan.trans hreport) (moved hanswer hhash hfound hne hsave)

/-- The report ends in one of the two ways: what stops the search is told or goes through, and the
detector is the one that the search leaves. -/
theorem detect (d : Detector) (w : World) :
    SinceLast d w (outcome detectSinceLast (d, w)).1 (outcome detectSinceLast (d, w)).2.1 := by
  have hscan := scan d w
  rcases h : outcome scanSinceLast (d, w) with ⟨e | found, d₁, w₁⟩
  · rw [h] at hscan
    obtain ⟨answer, w₂, hreport, hanswer⟩ :=
      exists_outcome_reporting_of_error "changes since last scan" h
    cases hscan
    exact of_outcome hreport (idle hanswer)
  · rw [h] at hscan
    exact of_outcome (outcome_recover_of_ok h _ _) hscan

end SinceLast

/-- A turn leaves as it is what depends on neither the store nor the last processed commit. -/
theorem eq_after_turn {α : Type} (f : Detector → α)
    (hf : ∀ store pointer, f { d with store := store, pointer := pointer } = f d)
    (request : Request) (w : World) : f (d.turn request w).after = f d := by
  cases request with
  | recent span => exact congrArg f (keeps_detectRecent span d w)
  | sinceLast =>
    have hcases := SinceLast.detect d w
    rcases hreport : outcome detectSinceLast (d, w) with ⟨answer, after, left⟩
    have hturn : d.turn .sinceLast w = ⟨.sinceLast, d, w, answer, after, left⟩ := turn_eq hreport
    rw [hreport] at hcases
    rw [hturn]
    cases hcases with
    | idle _ => rfl
    | moved _ _ _ _ _ => exact hf _ _

/-- A turn leaves the watched path as it is. -/
theorem path_turn (d : Detector) (request : Request) (w : World) :
    (d.turn request w).after.path = d.path :=
  eq_after_turn path (fun _ _ => rfl) request w

/-- A turn leaves as it is how far a replacement may be from what it replaces. -/
theorem lookahead_turn (d : Detector) (request : Request) (w : World) :
    (d.turn request w).after.lookahead = d.lookahead :=
  eq_after_turn lookahead (fun _ _ => rfl) request w

end Detector

end DesignTokens
