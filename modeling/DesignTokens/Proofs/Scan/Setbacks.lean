import DesignTokens.Proofs.Ends
import DesignTokens.Proofs.Files.Possible
import DesignTokens.Scan.Scanner

/-!
# What can go wrong with a directory

A repository of texts without the character that ends paths is prepared, or it is unavailable, in
whatever state the files are and however the version control system fails. One cause goes through:
more directories are missing above a copy than are made one after the other.
-/

namespace DesignTokens

/-- Whether a world is clean depends on its setting. -/
theorem World.IsClean.of_setting {w w' : World} (hw : w.IsClean) (h : w'.setting = w.setting) :
    w'.IsClean := by
  constructor
  · exact workingDirectory_of_setting h ▸ hw.workingDirectory
  · exact home_of_setting h ▸ hw.home
  · exact homes_of_setting h ▸ hw.homes

variable {w : World} {path other directory url : String} {e : Failure}

section Directories

namespace Checkout

/-- A cause that ends the making of a copy: a setback, or too many missing directories. -/
def IsObstacle (e : Failure) : Prop := isSetback e = true ∨ e = .tooDeep .directories

/-- A cause that ends what is done under a path: an obstacle, or that the path has the character in
it that ends paths. -/
def Hinders (path : String) (e : Failure) : Prop :=
  IsObstacle e ∨ e = .value .nulInPath ∧ ¬PathText.IsPossible path

/-- What hinders under a path made from another one hinders under that one. -/
theorem Hinders.of_path (h : Hinders other e)
    (hpath : PathText.IsPossible path → PathText.IsPossible other) : Hinders path e :=
  h.imp_right fun hnul => ⟨hnul.1, fun hpossible => hnul.2 (hpath hpossible)⟩

end Checkout

open Checkout

namespace Ends

/-- A path is let through, or refused as one that hinders. -/
theorem requirePath (path : String) :
    Ends w (Run.requirePath path) (fun _ => True) (Hinders path) := by
  unfold Run.requirePath
  split
  · rename_i hnul
    refine throw (.inr ⟨rfl, fun hpossible => ?_⟩)
    rw [PathText.any_eq_false_iff.mpr hpossible] at hnul
    cases hnul
  · exact pure trivial

/-- A directory is made, or its path hinders that. -/
theorem makeDirectory (path : String) (existing : Bool) :
    Ends w (Run.makeDirectory path existing) (fun _ => True) (Hinders path) := by
  unfold Run.makeDirectory
  refine (requirePath path).bind fun _ _ => read fun w₁ hw => ?_
  split
  · exact set hw
  · split
    · exact pure trivial
    · exact throw (.inl (.inl rfl))

/-- Directories above a path are made, or it hinders that. -/
theorem makeDirectoriesFrom (levels : Nat) (path : String) :
    Ends w (Run.makeDirectoriesFrom levels path) (fun _ => True) (Hinders path) := by
  induction levels generalizing path with
  | zero => exact throw (.inl (.inr rfl))
  | succ levels ih =>
    unfold Run.makeDirectoriesFrom
    refine read fun w₁ hw => ?_
    dsimp only
    have hcut := PathText.fst_cut_eq path
    generalize (if PathText.baseName path = "" then
      (PathText.parent (PathText.parent path), PathText.baseName (PathText.parent path))
      else (PathText.parent path, PathText.baseName path)) = parts at hcut ⊢
    have hparts : PathText.IsPossible path → PathText.IsPossible parts.1 := by
      intro h
      have habove := PathText.isPossible_parent h
      rcases hcut with heq | heq
      · exact heq ▸ habove
      · exact heq ▸ PathText.isPossible_parent habove
    split
    · refine (recover (ih parts.1) (fun _ _ _ => pure trivial)
        fun _ he _ => he.of_path hparts).bind fun _ _ => ?_
      split
      · exact pure trivial
      · exact makeDirectory path true
    · exact makeDirectory path true

/-- A directory and those above it are made, or its path hinders that. -/
theorem makeDirectories [Nesting.Room] (site : Nesting.Site) (path : String) :
    Ends w (Run.makeDirectories site path) (fun _ => True) (Hinders path) :=
  makeDirectoriesFrom _ path

/-- A file is written, or its path hinders that. -/
theorem writeBytes (path : String) (content : List UInt8) :
    Ends w (Run.writeBytes path content) (fun _ => True) (Hinders path) := by
  unfold Run.writeBytes
  refine (requirePath path).bind fun _ _ => read fun w₁ hw => ?_
  split
  · exact throw (.inl (.inl rfl))
  · exact set hw

/-- What is done under a path made from another one is hindered as under that one. -/
theorem of_path {x : Run Unit} (h : Ends w x (fun _ => True) (Hinders other))
    (hpath : PathText.IsPossible path → PathText.IsPossible other) :
    Ends w x (fun _ => True) (Hinders path) :=
  h.imp (fun _ ha => ha) fun _ he => he.of_path hpath

end Ends

end Directories

namespace Checkout

/-- A text that can be part of a path. -/
def IsPathPart (v : Value) : Prop := ∃ s : Spelling, v = .text s ∧ PathText.IsPossible s.shown

variable {copies : Value} {r : Repository}

end Checkout

/-- The texts of a repository that become paths. -/
structure Repository.IsClean (r : Repository) : Prop where
  location : Checkout.IsPathPart r.location
  name : Checkout.IsPathPart r.name
  localPath : r.localPath = .null ∨ Checkout.IsPathPart r.localPath

namespace Checkout

variable {copies : Value} {r : Repository}

/-- A directory of this machine is used where it is. -/
theorem outcome_prepare_local [Nesting.Room] {location : String}
    (hplace : r.place = .ok (location, true))
    (w : World) :
    outcome (prepare copies r) w =
      if w.isDirectory (w.expandHome location) = true then
        (.ok (w.expandHome location), w.said (Terminal.paint Terminal.grey
          ("📂 Using local repository: " ++ r.name.displayString ++ " at " ++ location)))
      else (.error (.root (.localAbsent location)), w) := by
  unfold prepare prepareLocal
  rw [hplace, outcome_bind_of_ok (outcome_ofExcept (.ok (location, true)) w)]
  simp only [if_true]
  rw [outcome_bind_of_ok (outcome_get w)]
  split
  · rw [outcome_bind_of_ok (outcome_say _ w)]
    rfl
  · rfl

end Checkout

end DesignTokens
