import DesignTokens.Proofs.Ends
import DesignTokens.Proofs.Scan.Shelf

/-!
# Runs that keep to a place

Two worlds are parallel at a place if they have the same there and below it, whatever else there is
in them. A run whose paths lead along the place does the same in both and changes nothing outside
it: the worlds it leaves are parallel again. This holds of a whole run when it holds of the parts.
-/

namespace DesignTokens

open FileTree PathText

variable {α β : Type} {P Q : World → World → Prop}

namespace Agree

/-- Lines about progress, printed in two worlds. -/
theorem say (line : String) (h : ∀ w w', P w w' → P (w.said line) (w'.said line)) :
    Agree P P (Run.say line) (Run.say line) := fun w w' hw => ⟨rfl, h w w' hw⟩

/-- Runs that begin with a line about progress. -/
theorem say_bind {f g : Unit → Run α} (line : String)
    (h : ∀ w w', P w w' → P (w.said line) (w'.said line)) (hf : Agree P Q (f ()) (g ())) :
    Agree P Q (Run.say line >>= f) (Run.say line >>= g) := by
  intro w w' hw
  rw [outcome_bind_of_ok (outcome_say line w), outcome_bind_of_ok (outcome_say line w')]
  exact hf _ _ (h w w' hw)

/-- An answer that is worked out before, or the failure. -/
theorem ofExcept_bind {r : Except Failure α} {f g : α → Run β}
    (hf : ∀ a, r = .ok a → Agree P P (f a) (g a)) :
    Agree P P (Run.ofExcept r >>= f) (Run.ofExcept r >>= g) := by
  cases r with
  | ok a =>
    have hgoes : ∀ f : α → Run β, Run.ofExcept (.ok a) >>= f = f a := fun f => pure_bind a f
    rw [hgoes, hgoes]
    exact hf a rfl
  | error e =>
    have hstops : ∀ f : α → Run β, Run.ofExcept (.error e) >>= f = MonadExcept.throw e :=
      fun _ => rfl
    rw [hstops, hstops]
    exact throw e

/-- A path is refused in both worlds or in neither. -/
theorem requirePath (path : String) : Agree P P (Run.requirePath path) (Run.requirePath path) := by
  unfold Run.requirePath
  split
  · exact throw _
  · exact pure ()

/-- Directories are made alike if the paths on the way lead to something alike and each directory
is made alike. -/
theorem makeDirectoriesFrom (good : String → Prop)
    (hparent : ∀ path, good path → parent path ≠ "" → good (parent path))
    (hexists : ∀ w w', P w w' → ∀ path, good path → w.pathExists path = w'.pathExists path)
    (hmake : ∀ path, good path → Agree P P (Run.makeDirectory path true)
      (Run.makeDirectory path true)) (levels : Nat) {path : String} (hpath : good path) :
    Agree P P (Run.makeDirectoriesFrom levels path) (Run.makeDirectoriesFrom levels path) := by
  induction levels generalizing path with
  | zero => exact throw _
  | succ levels ih =>
    unfold Run.makeDirectoriesFrom
    refine read fun w w' hw => ?_
    dsimp only
    have hcut := fst_cut_eq path
    generalize (if baseName path = "" then (parent (parent path), baseName (parent path))
      else (parent path, baseName path)) = parts at hcut ⊢
    have hparts : parts.1 ≠ "" → good parts.1 := by
      intro hne
      rcases hcut with heq | heq
      · rw [heq] at hne ⊢
        exact hparent path hpath hne
      · rw [heq] at hne ⊢
        have habove : parent path ≠ "" := by
          intro hempty
          rw [hempty] at hne
          exact hne (by decide)
        exact hparent _ (hparent path hpath habove) hne
    by_cases hempty : parts.1 = ""
    · have hstop : ∀ found : Bool, ¬ (decide (parts.1 ≠ "") && decide (parts.2 ≠ "") && !found) =
          true := by simp [hempty]
      rw [if_neg (hstop _), if_neg (hstop _)]
      exact hmake path hpath
    · rw [hexists w w' hw _ (hparts hempty)]
      split
      · refine ((ih (hparts hempty)).recover _ fun _ => pure ()).bind fun _ => ?_
        split
        · exact pure ()
        · exact hmake path hpath
      · exact hmake path hpath

end Agree

/-- Two worlds with the setting of `base` that are the same at a place and below it, the first of
which differs from `base` nowhere else. -/
structure Parallel (base : World) (place : Location) (w w' : World) : Prop where
  setting : w.setting = base.setting
  setting' : w'.setting = base.setting
  outside : w.files.outside place = base.files.outside place
  same : SameBelow place w.files w'.files

/-- A run that does the same in parallel worlds, and leaves parallel worlds. -/
abbrev KeepsTo (base : World) (place : Location) (x : Run α) : Prop :=
  Agree (Parallel base place) (Parallel base place) x x

namespace World

variable {w w' : World}

/-- Worlds with one setting have the same working directory. -/
theorem directory_of_setting (h : w.setting = w'.setting) : w.directory = w'.directory := by
  unfold directory
  rw [workingDirectory_of_setting h]

/-- The working directory is part of the setting. -/
theorem Anchored.of_setting (hw : w.Anchored) (h : w'.setting = w.setting) : w'.Anchored := by
  constructor
  · rw [workingDirectory_of_setting h, directory_of_setting h]
    exact hw.path
  · rw [directory_of_setting h]
    exact hw.names

/-- Worlds with one base have one setting. -/
theorem setting_of_base (h : w.base = w'.base) : w.setting = w'.setting :=
  show w.base.setting = w'.base.setting from congrArg setting h

end World

variable {base : World} {place : Location} {path directory url : String}

namespace Parallel

variable {w w' : World}

/-- What was issued and printed makes no difference. -/
theorem of_base {u u' : World} (h : Parallel base place w w') (hu : u.base = w.base)
    (hu' : u'.base = w'.base) : Parallel base place u u' := by
  refine ⟨(World.setting_of_base hu).trans h.setting, (World.setting_of_base hu').trans h.setting',
    ?_, ?_⟩
  · rw [World.files_of_base hu]
    exact h.outside
  · rw [World.files_of_base hu, World.files_of_base hu']
    exact h.same

/-- Worlds stay parallel after a line about progress. -/
theorem said (h : Parallel base place w w') (line : String) :
    Parallel base place (w.said line) (w'.said line) :=
  h.of_base (w.base_said line) (w'.base_said line)

/-- What is put at the place or below it in both worlds. -/
theorem put (h : Parallel base place w w') {location : Location} (hle : place <+: location)
    (hproper : ∀ name ∈ location, IsProper name) (node : Node) :
    Parallel base place { w with files := w.files.put location node }
      { w' with files := w'.files.put location node } :=
  ⟨h.setting, h.setting', (outside_put hle w.files node).trans h.outside,
    h.same.put hle hproper node⟩

end Parallel

namespace KeepsTo

/-- Showing progress keeps to the place. -/
theorem say (line : String) : KeepsTo base place (Run.say line) :=
  Agree.say line fun _ _ hw => hw.said line

/-- Warning keeps to the place. -/
theorem warn (line : String) : KeepsTo base place (Run.warn line) :=
  fun _ _ hw => ⟨rfl, hw.of_base rfl rfl⟩

/-- A path without steps up that leads along a place. -/
def Follows (base : World) (place : Location) (path : String) : Prop :=
  IsStraight path ∧ Along place (spelled base.directory path)

/-- The path above one that follows the place follows it. -/
theorem Follows.parent (h : Follows base place path) (hne : parent path ≠ "") :
    Follows base place (parent path) :=
  ⟨h.1.parent, h.2.of_le (spelled_parent_le base.directory hne)⟩

variable (hbase : base.Anchored)

include hbase

/-- Making a directory at such a path keeps to the place. -/
theorem makeDirectory (h : Follows base place path) (existing : Bool) :
    KeepsTo base place (Run.makeDirectory path existing) := by
  obtain ⟨hstraight, halong⟩ := h
  unfold Run.makeDirectory
  refine (Agree.requirePath path).bind fun _ => Agree.read fun w w' hw => ?_
  have hisDirectory := hw.same.isDirectory_eq hstraight halong
  unfold World.isDirectory
  rw [World.directory_of_setting hw.setting, World.directory_of_setting hw.setting', hisDirectory]
  rcases hw.same.makeDirectory_cases hstraight halong with
    ⟨e, hmake, hmake'⟩ | ⟨location, rfl, hle, hmake, hmake'⟩
  · rw [hmake, hmake']
    dsimp only
    split
    · exact .pure ()
    · exact .throw _
  · rw [hmake, hmake']
    exact .set (hw.put hle (isProper_of_mem_spelled hbase.names hstraight) _)

/-- Making the directories above such a path keeps to the place. -/
theorem makeDirectoriesFrom (h : Follows base place path) (levels : Nat) :
    KeepsTo base place (Run.makeDirectoriesFrom levels path) := by
  refine Agree.makeDirectoriesFrom (Follows base place) (fun _ h hne => h.parent hne) ?_
    (fun path h => makeDirectory hbase h true) _ h
  intro w w' hw path hpath
  unfold World.pathExists
  rw [World.directory_of_setting hw.setting, World.directory_of_setting hw.setting']
  exact hw.same.pathExists_eq hpath.1 hpath.2

/-- Writing a file at such a path keeps to the place. -/
theorem writeBytes (h : Follows base place path) (content : List UInt8) :
    KeepsTo base place (Run.writeBytes path content) := by
  obtain ⟨hstraight, halong⟩ := h
  unfold Run.writeBytes
  refine (Agree.requirePath path).bind fun _ => Agree.read fun w w' hw => ?_
  rw [World.directory_of_setting hw.setting, World.directory_of_setting hw.setting']
  rcases hw.same.write_cases hstraight halong content with
    ⟨e, hwrite, hwrite'⟩ | ⟨location, rfl, hle, hwrite, hwrite'⟩
  · rw [hwrite, hwrite']
    exact .throw _
  · rw [hwrite, hwrite']
    exact .set (hw.put hle (isProper_of_mem_spelled hbase.names hstraight) _)

/-- The files of a copy are put below its directory. -/
theorem putCopy {files : ClonedFiles} (hne : directory ≠ "") (hstraight : IsStraight directory)
    (hplace : spelled base.directory directory = place)
    (hfiles : ∀ file ∈ files, isAbsolute file.1 = false ∧ IsStraight file.1) :
    KeepsTo base place (Checkout.putCopy directory files) := by
  unfold Checkout.putCopy
  refine Agree.forM fun file hfile => ?_
  obtain ⟨hrelative, hfile⟩ := hfiles file hfile
  have hpath : Follows base place (append directory file.1) := by
    refine ⟨isStraight_append hrelative hstraight hfile, .inr ?_⟩
    rw [spelled_append hrelative, hplace]
    exact List.prefix_append _ _
  have habove := hpath.parent (parent_ne_empty (slash_mem_append hrelative hne))
  split
  · exact (makeDirectoriesFrom hbase habove _).bind fun _ => writeBytes hbase hpath _
  · exact makeDirectoriesFrom hbase hpath _

end KeepsTo

namespace Checkout

/-- Copies of a remote repository that hold the same whenever they are made, by relative paths
without steps up. -/
structure IsSteady (git : GitService) (url : String) : Prop where
  same : ∀ history history', git.cloned history url = git.cloned history' url
  below : ∀ history files, git.cloned history url = .ok files →
    ∀ file ∈ files, isAbsolute file.1 = false ∧ IsStraight file.1

/-- A copy is made below its directory. -/
theorem keepsTo_clone [Nesting.Room] (hbase : base.Anchored) (hgit : IsSteady base.git url)
    (hne : directory ≠ "")
    (hstraight : IsStraight directory) (hplace : spelled base.directory directory = place)
    (branch : Value) : KeepsTo base place (clone url directory branch) := by
  unfold clone
  refine Agree.read fun w w' hw => ?_
  have hissued : Parallel base place (w.issued (.clone url directory branch))
      (w'.issued (.clone url directory branch)) := hw.of_base rfl rfl
  refine (Agree.set hissued).bind fun _ => ?_
  rw [World.git_of_setting hw.setting, World.git_of_setting hw.setting', hgit.same w.calls w'.calls]
  split
  · exact .throw _
  · rename_i files hfiles
    exact KeepsTo.putCopy hbase hne hstraight hplace (hgit.below _ files hfiles)

end Checkout

end DesignTokens
