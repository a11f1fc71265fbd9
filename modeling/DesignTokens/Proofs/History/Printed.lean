import DesignTokens.Proofs.History.Search
import DesignTokens.Proofs.History.Store
import DesignTokens.Proofs.History.Turn

/-!
# What was printed before a report

A report does the same whatever was printed before it: the lines on the screen are written and never
read. The runs that a report is made of do even less than a report may do. Those that ask the
version control system change nothing else, and those that keep a commit leave the version control
system alone.
-/

namespace DesignTokens

variable {α β : Type}

/-- A world before any line is printed in it. -/
def World.unprinted (w : World) : World := { w with output := [], warnings := [] }

/-- The version control system and the commands issued so far. -/
def World.dialogue (w : World) : GitService × List GitCall := (w.git, w.calls)

section Spares

variable {σ τ κ : Type} {view : σ → τ} {part : τ → κ} {x : RunOn σ α}

/-- What a computation does depends on what a view shows of the state, and a part of that stays as
it is. -/
structure Spares (view : σ → τ) (part : τ → κ) (x : RunOn σ α) : Prop where
  depends : DependsOn view x
  kept : ∀ s, part (view (outcome x s).2) = part (view s)

namespace Spares

/-- A value depends on nothing and changes nothing. -/
theorem pure (a : α) : Spares view part (pure a) := ⟨.pure a, fun _ => rfl⟩

/-- A cause depends on nothing and changes nothing. -/
theorem throw (e : Failure) : Spares view part (throw e : RunOn σ α) := ⟨.throw e, fun _ => rfl⟩

/-- The part is what a view of its own shows. -/
theorem preserves (h : Spares view part x) : Preserves (fun s => part (view s)) x := h.kept

/-- Two parts that spare something do so one after the other. -/
theorem bind {f : α → RunOn σ β} (hx : Spares view part x) (hf : ∀ a, Spares view part (f a)) :
    Spares view part (x >>= f) :=
  ⟨hx.depends.bind fun a => (hf a).depends, hx.preserves.bind fun a => (hf a).preserves⟩

/-- A try spares what both the part tried and the one after a failure spare. -/
theorem recover {handle : Failure → RunOn σ α} (hx : Spares view part x) (fault : Failure → Bool)
    (hhandle : ∀ e, Spares view part (handle e)) :
    Spares view part (Run.recover fault x handle) :=
  ⟨hx.depends.recover fault fun e => (hhandle e).depends,
    hx.preserves.recover fun e => (hhandle e).preserves⟩

/-- What stays as it is has parts that stay as they are. -/
theorem of_part {κ' : Type} (f : κ → κ') (h : Spares view part x) :
    Spares view (fun s => f (part s)) x :=
  ⟨h.depends, fun s => congrArg f (h.kept s)⟩

end Spares

end Spares

namespace Run

/-- A run that prints, and issues commands where `part` allows it; what was printed before makes no
difference to it. -/
abbrev Spares {κ : Type} (part : World → κ) (x : Run α) : Prop :=
  DesignTokens.Spares World.unprinted part x

variable {κ : Type} {part : World → κ}

namespace Spares

/-- A line about progress touches nothing but what is printed. -/
theorem say (line : String) : Run.Spares part (Run.say line) := by
  have hsaid : ∀ w : World, (w.said line).unprinted = w.unprinted := by
    intro w
    unfold World.said
    split <;> rfl
  refine ⟨fun w w' h => ⟨rfl, ?_⟩, fun w => congrArg part (hsaid w)⟩
  exact (hsaid w).trans (h.trans (hsaid w').symm)

/-- A warning touches nothing but what is printed. -/
theorem warn (line : String) : Run.Spares part (Run.warn line) :=
  ⟨fun _ _ h => ⟨rfl, h⟩, fun _ => rfl⟩

/-- A part without effects touches nothing. -/
theorem ofExcept (r : Except Failure α) : Run.Spares part (Run.ofExcept r) := by
  cases r with
  | error e => exact DesignTokens.Spares.throw e
  | ok a => exact DesignTokens.Spares.pure a

/-- A run that begins with a look at the world, but not at what was printed. -/
theorem read {f : World → Run α} (hview : ∀ w w', w.unprinted = w'.unprinted → f w = f w')
    (hf : ∀ w, Run.Spares part (f w)) : Run.Spares part (get >>= f) := by
  refine ⟨fun w w' h => ?_, fun w => ?_⟩
  · rw [outcome_bind_of_ok (outcome_get w), outcome_bind_of_ok (outcome_get w'), hview w w' h]
    exact (hf w').depends w w' h
  · rw [outcome_bind_of_ok (outcome_get w)]
    exact (hf w).kept w

/-- The answer to a command depends on the commands before it. -/
theorem ask (call : GitCall) : Run.Spares World.base (Run.ask call) := by
  refine ⟨fun w w' h => ?_, fun w => ?_⟩
  · have hgit : w.git = w'.git := show w.unprinted.git = w'.unprinted.git from congrArg _ h
    have hcalls : w.calls = w'.calls :=
      show w.unprinted.calls = w'.unprinted.calls from congrArg _ h
    have hissued : (w.issued call).unprinted = (w'.issued call).unprinted :=
      congrArg (fun w => w.issued call) h
    cases hanswer : w'.git.answer w'.calls call with
    | ok text =>
      rw [outcome_ask_of_ok hanswer]
      rw [← hgit, ← hcalls] at hanswer
      rw [outcome_ask_of_ok hanswer]
      exact ⟨rfl, hissued⟩
    | error f =>
      rw [outcome_ask_of_error hanswer]
      rw [← hgit, ← hcalls] at hanswer
      rw [outcome_ask_of_error hanswer]
      exact ⟨rfl, hissued⟩
  · cases hanswer : w.git.answer w.calls call with
    | ok text =>
      rw [outcome_ask_of_ok hanswer]
      rfl
    | error f =>
      rw [outcome_ask_of_error hanswer]
      rfl

/-- It makes no difference whether an answer is wanted. -/
theorem discard {x : Run α} (h : Run.Spares part x) : Run.Spares part (discard x) := by
  have hbind : Functor.discard x = x >>= fun _ => Pure.pure () := (bind_pure_comp _ x).symm
  rw [hbind]
  exact h.bind fun _ => DesignTokens.Spares.pure ()

/-- A command with a value in place of its answer, and a warning, where it fails. -/
theorem asked (call : GitCall) (f : String → α) (fault : Failure → Bool)
    (line : Failure → String) (a : α) :
    Run.Spares World.base (Run.recover fault (do return f (← Run.ask call)) fun e => do
      Run.warn (line e)
      Pure.pure a) :=
  ((ask call).bind fun text => DesignTokens.Spares.pure (f text)).recover fault fun e =>
    (warn (line e)).bind fun _ => DesignTokens.Spares.pure a

end Spares

end Run

namespace World

variable {w w' : World}

/-- Worlds that differ in what was printed have one base. -/
theorem base_of_unprinted (h : w.unprinted = w'.unprinted) : w.base = w'.base :=
  show w.unprinted.base = w'.unprinted.base from congrArg base h

/-- Worlds that differ in what was printed have seen the same commands. -/
theorem calls_of_unprinted (h : w.unprinted = w'.unprinted) : w.calls = w'.calls :=
  show w.unprinted.calls = w'.unprinted.calls from congrArg calls h

end World

namespace Detector

/-- Opening a repository changes nothing but what was issued and printed. -/
theorem spares_openRepository (d : Detector) : Run.Spares World.base d.openRepository := by
  have hfound : ∀ w w' : World, w.unprinted = w'.unprinted →
      pathExists w d.path = pathExists w' d.path := by
    intro w w' h
    have hexists : w.pathExists = w'.pathExists := by
      unfold World.pathExists
      rw [World.files_of_base (World.base_of_unprinted h),
        World.directory_of_base (World.base_of_unprinted h)]
    unfold pathExists
    rw [hexists]
  unfold openRepository
  refine Run.Spares.read (fun w w' h => by rw [hfound w w' h]) fun w => ?_
  refine (Run.Spares.ofExcept _).bind fun found => ?_
  cases found with
  | false => exact (Run.Spares.warn _).bind fun _ => Spares.pure false
  | true =>
    refine ((Run.Spares.ask _).discard.bind fun _ => Spares.pure true).recover _ fun _ => ?_
    exact (Run.Spares.warn _).bind fun _ => Spares.pure false

/-- Reading a change of a file changes nothing but what was issued and printed. -/
theorem spares_fileChange (lookahead : Int) (hash : String) (status : List Char) (path : String) :
    Run.Spares World.base (fileChange lookahead hash status path) := by
  unfold fileChange
  cases FileChangeKind.ofStatus status with
  | modified =>
    have hdiff : Run.Spares World.base (diffOf hash path) :=
      (Run.Spares.ask _).recover _ fun e => (Run.Spares.warn _).bind fun _ => Spares.pure ""
    exact hdiff.bind fun diff => (Run.Spares.ofExcept _).bind fun changes => Spares.pure _
  | added => exact Spares.pure _
  | deleted => exact Spares.pure _

/-- A search changes nothing but what was issued and printed if its steps do not. -/
theorem isInherited_spares : IsInherited (Run.Spares World.base) where
  value := Spares.pure
  bind := Spares.bind
  say _ _ := .say _
  asked f line a _ := .asked _ f _ line a
  fileChange := spares_fileChange

end Detector

namespace Run

variable {κ : Type} {part : World → κ}

/-- Refusing a path touches nothing. -/
theorem spares_requirePath (path : String) : Run.Spares part (requirePath path) := by
  unfold requirePath
  split
  · exact Spares.throw _
  · exact Spares.pure ()

/-- Making a directory issues no command. -/
theorem spares_makeDirectory (path : String) (existing : Bool) :
    Run.Spares World.dialogue (makeDirectory path existing) := by
  refine (spares_requirePath path).bind fun _ => ⟨fun w w' h => ?_, fun w => ?_⟩
  · have hfiles := World.files_of_base (World.base_of_unprinted h)
    have hdirectory := World.directory_of_base (World.base_of_unprinted h)
    have hexisting : w.isDirectory path = w'.isDirectory path := by
      unfold World.isDirectory
      rw [hfiles, hdirectory]
    rw [outcome_bind_of_ok (outcome_get w), outcome_bind_of_ok (outcome_get w'), hfiles,
      hdirectory, hexisting]
    cases w'.files.makeDirectory w'.directory path with
    | ok files => exact ⟨rfl, congrArg (fun w => { w with files := files }) h⟩
    | error e =>
      simp only
      split
      · exact ⟨rfl, h⟩
      · exact ⟨rfl, h⟩
  · rw [outcome_bind_of_ok (outcome_get w)]
    cases w.files.makeDirectory w.directory path with
    | ok files => rfl
    | error e =>
      simp only
      split <;> rfl

/-- Writing a file issues no command. -/
theorem spares_writeBytes (path : String) (content : List UInt8) :
    Run.Spares World.dialogue (writeBytes path content) := by
  refine (spares_requirePath path).bind fun _ => ⟨fun w w' h => ?_, fun w => ?_⟩
  · have hfiles := World.files_of_base (World.base_of_unprinted h)
    have hdirectory := World.directory_of_base (World.base_of_unprinted h)
    rw [outcome_bind_of_ok (outcome_get w), outcome_bind_of_ok (outcome_get w'), hfiles,
      hdirectory]
    cases w'.files.write w'.directory path content with
    | ok files => exact ⟨rfl, congrArg (fun w => { w with files := files }) h⟩
    | error e => exact ⟨rfl, h⟩
  · rw [outcome_bind_of_ok (outcome_get w)]
    cases w.files.write w.directory path content with
    | ok files => rfl
    | error e => rfl

/-- Looking for a path leaves nothing behind. -/
theorem spares_findPath (path : String) : Run.Spares id (findPath path) := by
  refine Spares.read (fun w w' h => ?_) fun w => ?_
  · rw [World.files_of_base (World.base_of_unprinted h),
      World.directory_of_base (World.base_of_unprinted h)]
  · split
    · exact DesignTokens.Spares.pure true
    · exact DesignTokens.Spares.throw _
    · exact DesignTokens.Spares.pure false

/-- Reading leaves nothing behind. -/
theorem spares_readText (path : String) : Run.Spares id (readText path) := by
  refine Spares.read (fun w w' h => ?_) fun w => Spares.ofExcept _
  unfold World.textOf
  rw [World.files_of_base (World.base_of_unprinted h),
    World.directory_of_base (World.base_of_unprinted h)]

end Run

namespace PointerStore

/-- Making the directories above a path issues no command. -/
theorem spares_makeAbove (root : String) (levels : Nat) (reversed : List String) :
    Run.Spares World.dialogue (makeAbove root levels reversed) := by
  induction levels generalizing reversed with
  | zero => exact Spares.throw _
  | succ levels ih =>
    cases reversed with
    | nil => exact Run.spares_makeDirectory _ true
    | cons name above =>
      refine (Run.spares_makeDirectory _ true).recover _ fun e => ?_
      exact (ih above).bind fun _ => Run.spares_makeDirectory _ true

/-- A commit is kept without asking the version control system. -/
theorem spares_save [Nesting.Room] (store : PointerStore) (hash : String) :
    Run.Spares World.dialogue (store.save hash) := by
  cases store with
  | abstract => exact Spares.throw _
  | memory held => exact Spares.pure _
  | nowhere halves => exact Spares.throw _
  | file path =>
    have hsave : Run.Spares World.dialogue (saveTo path hash) :=
      (spares_makeAbove _ _ _).bind fun _ => Run.spares_writeBytes path _
    exact (hsave.recover _ fun e => Run.Spares.warn _).bind fun _ => Spares.pure _

/-- What a store holds is looked up, and nothing changes but what is printed. -/
theorem spares_load (store : PointerStore) : Run.Spares id store.load := by
  cases store with
  | abstract => exact Spares.throw _
  | memory held => exact Spares.pure held
  | nowhere halves => exact Spares.pure none
  | file path =>
    refine (Run.spares_findPath path).bind fun found => ?_
    cases found with
    | false => exact Spares.pure none
    | true =>
      refine Spares.recover ?_ _ fun e => (Run.Spares.warn _).bind fun _ => Spares.pure none
      exact (Run.spares_readText path).bind fun text => Spares.pure _

end PointerStore

namespace Detection

/-- A detector and a world without what was printed in it. -/
def view (s : Detector × World) : Detector × World := (s.1, s.2.unprinted)

/-- A detection that does the same whatever was printed before it, and leaves the version control
system as it is. -/
abbrev Spares (x : Detection α) : Prop := DesignTokens.Spares view (fun s => s.2.git) x

namespace Spares

theorem detector : Detection.Spares detector :=
  ⟨fun _ _ h => ⟨congrArg Except.ok (Prod.mk.inj h).1, h⟩, fun _ => rfl⟩

theorem put (d : Detector) : Detection.Spares (put d) :=
  ⟨fun _ _ h => ⟨rfl, congrArg (fun s => (d, s.2)) h⟩, fun _ => rfl⟩

/-- A run that leaves the version control system as it is does so inside a detection. -/
theorem run {x : Run α} (h : Run.Spares World.git x) : Detection.Spares (ofRun x) := by
  refine ⟨fun s s' hs => ?_, fun s => h.kept s.2⟩
  obtain ⟨hd, hw⟩ := Prod.mk.inj hs
  obtain ⟨hanswer, hleft⟩ := h.depends s.2 s'.2 hw
  exact ⟨hanswer, Prod.ext hd hleft⟩

/-- The version control system stays as it is with everything else. -/
theorem asking {x : Run α} (h : Run.Spares World.base x) : Detection.Spares (ofRun x) :=
  run (h.of_part World.git)

end Spares

end Detection

namespace Detector

open Detection

/-- Moving the pointer does not depend on what was printed. -/
theorem spares_advance [Nesting.Room] (hash : String) : Detection.Spares (advance hash) := by
  refine Spares.detector.bind fun d => ?_
  have hsave : Run.Spares World.git (d.store.save hash) :=
    (d.store.spares_save hash).of_part Prod.fst
  refine (Spares.run hsave).bind fun store => ?_
  refine (Spares.put _).bind fun _ => (Spares.put _).bind fun _ => ?_
  exact Spares.run (Run.Spares.say _)

/-- A report does not depend on what was printed if its body does not. -/
theorem spares_reporting {body : Detection (List Commit)} (h : Detection.Spares body)
    (what : String) : Detection.Spares (reporting what body) :=
  h.recover _ fun _ => (Spares.run (Run.Spares.warn _)).bind fun _ => DesignTokens.Spares.pure []

/-- A report up to a commit does not depend on what was printed. -/
theorem spares_reportUpTo [Nesting.Room] (d : Detector) (latest : Option String) :
    Detection.Spares (d.reportUpTo latest) := by
  cases latest with
  | none => exact (Spares.run (Run.Spares.warn _)).bind fun _ => DesignTokens.Spares.pure []
  | some latest =>
    refine (Spares.asking (isInherited_spares.commitsUpTo d latest)).bind fun found => ?_
    split
    · exact DesignTokens.Spares.pure found
    · exact (spares_advance latest).bind fun _ => DesignTokens.Spares.pure found

/-- A report does the same whatever was printed before it, and leaves the version control system as
it is. -/
theorem spares_detect [Nesting.Room] (request : Request) : Detection.Spares request.detect := by
  have hopen (d : Detector) : Detection.Spares (ofRun d.openRepository) :=
    Spares.asking d.spares_openRepository
  cases request with
  | sinceLast =>
    refine spares_reporting (Spares.detector.bind fun d => (hopen d).bind fun opened => ?_) _
    cases opened with
    | false => exact DesignTokens.Spares.pure []
    | true =>
      exact (Spares.asking isInherited_spares.latestCommit).bind fun latest =>
        d.spares_reportUpTo latest
  | recent span =>
    refine spares_reporting (Spares.detector.bind fun d => (hopen d).bind fun opened => ?_) _
    cases opened with
    | false => exact DesignTokens.Spares.pure []
    | true =>
      exact (Spares.run (Run.Spares.say _)).bind fun _ =>
        Spares.asking (isInherited_spares.commits d none _)

end Detector

end DesignTokens
