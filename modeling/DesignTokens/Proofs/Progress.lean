import DesignTokens.Proofs.Ends
import DesignTokens.Proofs.Lists

/-!
# Lines about progress

What a run prints on the way are lines about its progress, each of them painted, and none where
progress is not shown. `Proceeds` says so of a run, however it ends. Everything that a run does to
files and with the version control system goes on without a word.
-/

namespace DesignTokens

variable {α β : Type}

/-- A line in a color or weight of its own. -/
def Terminal.IsPainted (line : String) : Prop :=
  ∃ code text, line = paint (sequence code) text

namespace World

/-- Between two worlds these lines about progress are printed and no others; where it all happens
stays as it is. -/
structure Shows (w w' : World) (lines : List String) : Prop where
  setting : w'.setting = w.setting
  output : w'.output = w.output ++ lines
  painted : ∀ line ∈ lines, Terminal.IsPainted line
  quiet : w.verbose = false → lines = []

variable {w w₁ w₂ : World} {lines more : List String}

/-- Progress is shown in both or in neither of two worlds with one setting. -/
theorem verbose_of_setting (h : w.setting = w₁.setting) : w.verbose = w₁.verbose :=
  show w.setting.verbose = w₁.setting.verbose from congrArg verbose h

namespace Shows

/-- Nothing is printed. -/
theorem nothing (hsetting : w₁.setting = w.setting) (houtput : w₁.output = w.output) :
    w.Shows w₁ [] :=
  ⟨hsetting, houtput.trans (List.append_nil _).symm, nofun, fun _ => rfl⟩

/-- Lines may follow lines. -/
theorem trans (h : w.Shows w₁ lines) (h' : w₁.Shows w₂ more) : w.Shows w₂ (lines ++ more) where
  setting := h'.setting.trans h.setting
  output := by rw [h'.output, h.output, List.append_assoc]
  painted := List.forall_mem_append.mpr ⟨h.painted, h'.painted⟩
  quiet hquiet := by
    have hquiet' := (verbose_of_setting h.setting).trans hquiet
    rw [h.quiet hquiet, h'.quiet hquiet', List.append_nil]

/-- A painted line about progress is shown if progress is. -/
theorem said (w : World) {line : String} (hline : Terminal.IsPainted line) :
    w.Shows (w.said line) (if w.verbose then [line] else []) := by
  unfold World.said
  by_cases hverbose : w.verbose = true
  · rw [if_pos hverbose, if_pos hverbose]
    exact ⟨rfl, rfl, List.forall_mem_singleton.mpr hline, fun hquiet => by
      rw [hverbose] at hquiet
      cases hquiet⟩
  · rw [if_neg hverbose, if_neg hverbose]
    exact nothing rfl rfl

end Shows

/-- From one world to the other nothing is printed but lines about progress. -/
def Proceeds (w w' : World) : Prop := ∃ lines, w.Shows w' lines

namespace Proceeds

/-- Where nothing happens nothing is printed. -/
theorem refl (w : World) : w.Proceeds w := ⟨[], .nothing rfl rfl⟩

/-- Lines about progress may follow one another. -/
theorem trans : w.Proceeds w₁ → w₁.Proceeds w₂ → w.Proceeds w₂ :=
  fun ⟨lines, h⟩ ⟨more, h'⟩ => ⟨lines ++ more, h.trans h'⟩

end Proceeds

end World

/-- However the computation ends, nothing has been printed but lines about progress in the world
that a view shows of the state. -/
abbrev Proceeds {σ : Type} (view : σ → World) (x : RunOn σ α) : Prop :=
  Advances (fun s s' => (view s).Proceeds (view s')) x

instance {σ : Type} (view : σ → World) :
    IsPreorder σ fun s s' => (view s).Proceeds (view s') where
  refl s := .refl (view s)
  trans _ _ _ := .trans

namespace Run

/-- A run that prints nothing but lines about progress. -/
abbrev Proceeds (x : Run α) : Prop := DesignTokens.Proceeds id x

namespace Proceeds

/-- A painted line is a line about progress. -/
theorem say (code text : String) :
    Run.Proceeds (Run.say (Terminal.paint (Terminal.sequence code) text)) :=
  fun w => ⟨_, .said w ⟨code, text, rfl⟩⟩

/-- A warning is no line of the output. -/
theorem warn (line : String) : Run.Proceeds (Run.warn line) := fun _ => ⟨[], .nothing rfl rfl⟩

/-- A part without effects prints nothing. -/
theorem ofExcept (r : Except Failure α) : Run.Proceeds (Run.ofExcept r) := by
  cases r with
  | error e => exact .throw e
  | ok a => exact .pure a

/-- A run that begins with a look at the world. -/
theorem read {f : World → Run α} (hf : ∀ w, Run.Proceeds (f w)) : Run.Proceeds (get >>= f) :=
  Advances.read fun w => hf w w

/-- Files may change. -/
theorem set_files (w : World) (files : FileTree) :
    w.Proceeds (outcome (set { w with files := files } : Run Unit) w).2 :=
  ⟨[], .nothing rfl rfl⟩

/-- A command prints nothing. -/
theorem ask (call : GitCall) : Run.Proceeds (Run.ask call) := by
  intro w
  cases h : w.git.answer w.calls call with
  | ok text =>
    rw [outcome_ask_of_ok h]
    exact ⟨[], .nothing rfl rfl⟩
  | error f =>
    rw [outcome_ask_of_error h]
    exact ⟨[], .nothing rfl rfl⟩

end Proceeds

/-- Reading a file prints nothing. -/
theorem proceeds_readText (path : String) : Run.Proceeds (readText path) :=
  Proceeds.read fun w => .ofExcept (w.textOf path)

/-- Looking for a path prints nothing. -/
theorem proceeds_findPath (path : String) : Run.Proceeds (findPath path) := by
  refine Proceeds.read fun w => ?_
  split
  · exact .pure true
  · exact .throw _
  · exact .pure false

/-- Refusing a path prints nothing. -/
theorem proceeds_requirePath (path : String) : Run.Proceeds (requirePath path) := by
  unfold requirePath
  split
  · exact .throw _
  · exact .pure ()

/-- Writing a file prints nothing. -/
theorem proceeds_writeBytes (path : String) (content : List UInt8) :
    Run.Proceeds (writeBytes path content) := by
  refine (proceeds_requirePath path).bind fun _ => Advances.read fun w => ?_
  split
  · exact .refl w
  · exact Proceeds.set_files w _

/-- Writing a text to a file prints nothing. -/
theorem proceeds_writeText (path text : String) : Run.Proceeds (writeText path text) :=
  proceeds_writeBytes path _

/-- Writing a document to a file prints nothing. -/
theorem proceeds_writeDocument (path : String) (v : Value) :
    Run.Proceeds (writeDocument path v) := by
  unfold writeDocument
  split
  · exact proceeds_writeText path _
  · exact (proceeds_writeText path _).bind fun _ => .throw _

/-- Making a directory prints nothing. -/
theorem proceeds_makeDirectory (path : String) (existing : Bool) :
    Run.Proceeds (makeDirectory path existing) := by
  refine (proceeds_requirePath path).bind fun _ => Advances.read fun w => ?_
  split
  · exact Proceeds.set_files w _
  · split
    · exact .refl w
    · exact .refl w

theorem proceeds_makeDirectoriesFrom (levels : Nat) (path : String) :
    Run.Proceeds (makeDirectoriesFrom levels path) := by
  induction levels generalizing path with
  | zero => exact .throw _
  | succ levels ih =>
    unfold makeDirectoriesFrom
    refine Proceeds.read fun w => ?_
    dsimp only
    generalize (if PathText.baseName path = "" then
      (PathText.parent (PathText.parent path), PathText.baseName (PathText.parent path))
      else (PathText.parent path, PathText.baseName path)) = parts
    split
    · refine ((ih parts.1).recover _ fun _ => .pure ()).bind fun _ => ?_
      split
      · exact .pure ()
      · exact proceeds_makeDirectory _ true
    · exact proceeds_makeDirectory _ true

/-- Making a directory and those above it prints nothing. -/
theorem proceeds_makeDirectories [Nesting.Room] (site : Nesting.Site) (path : String) :
    Run.Proceeds (makeDirectories site path) :=
  proceeds_makeDirectoriesFrom _ path

/-- Making directories at a path as it is spelled prints nothing. -/
theorem proceeds_makeSpelledDirectories [Nesting.Room] (site : Nesting.Site) (path : Spelling) :
    Run.Proceeds (makeSpelledDirectories site path) := by
  unfold makeSpelledDirectories
  split
  · exact (proceeds_makeDirectories _ _).bind fun _ => .pure _
  · refine Proceeds.read fun w => ?_
    split
    · exact (proceeds_makeDirectories _ _).bind fun _ => .throw _
    · exact .throw _

end Run

end DesignTokens
