import DesignTokens.History.Detector
import DesignTokens.Proofs.Run

/-!
# Searches for commits

A search for commits is put together from a few kinds of steps: lines about its progress, commands
with a value in place of the answer where they fail, and the changes of single files. `IsInherited`
is for properties that these steps have and that are kept where runs are put together; every search
has each of them.
-/

namespace DesignTokens.Detector

open Terminal

/-- A property that a search for commits inherits from its steps. -/
structure IsInherited (P : ∀ {α : Type}, Run α → Prop) : Prop where
  value : ∀ {α : Type} (a : α), P (pure a : Run α)
  bind : ∀ {α β : Type} {x : Run α} {f : α → Run β}, P x → (∀ a, P (f a)) → P (x >>= f)
  say : ∀ code text, P (Run.say (paint (sequence code) text))
  asked : ∀ {α : Type} {call : GitCall} (f : String → α) (line : Failure → String) (a : α),
    (∀ hash file, call ≠ .diffOf hash file) →
      P (Run.recover Failure.isGit (do return f (← Run.ask call)) fun e => do
        Run.warn (line e)
        pure a)
  fileChange : ∀ lookahead hash status path, P (fileChange lookahead hash status path)

namespace IsInherited

variable {P : ∀ {α : Type}, Run α → Prop}

/-- A loop over items inherits what its body has for every item. -/
theorem mapM {α β : Type} (hP : IsInherited P) {f : α → Run β} (hf : ∀ a, P (f a))
    (items : List α) : P (items.mapM f) := by
  induction items with
  | nil => exact hP.value []
  | cons a items ih =>
    rw [List.mapM_cons]
    exact hP.bind (hf a) fun b => hP.bind ih fun answers => hP.value (b :: answers)

/-- Asking for the commit that is checked out inherits it. -/
theorem latestCommit (hP : IsInherited P) : P latestCommit :=
  hP.asked _ _ none fun _ _ h => GitCall.noConfusion h

/-- Asking for the changes of a commit inherits it. -/
theorem changesOf (hP : IsInherited P) (lookahead : Int) (hash : String) :
    P (changesOf lookahead hash) := by
  refine hP.bind (hP.asked some _ none fun _ _ h => GitCall.noConfusion h) fun listed => ?_
  cases listed with
  | none => exact hP.value []
  | some text =>
    refine hP.mapM ?_ _
    rintro ⟨status, path⟩
    exact hP.fileChange lookahead hash status path

/-- A search for commits inherits it. -/
theorem commits (hP : IsInherited P) (d : Detector) (range since : Option String) :
    P (d.commits range since) := by
  refine hP.bind (hP.asked some _ none fun _ _ h => GitCall.noConfusion h) fun listed => ?_
  cases listed with
  | none => exact hP.value []
  | some text =>
    refine hP.mapM ?_ _
    rintro ⟨hash, author, date, message⟩
    exact hP.bind (hP.changesOf d.lookahead hash) fun changes => hP.value _

/-- A search for the commits up to one inherits it. -/
theorem commitsUpTo (hP : IsInherited P) (d : Detector) (latest : String) :
    P (d.commitsUpTo latest) := by
  unfold Detector.commitsUpTo
  cases given d.pointer with
  | none => exact hP.bind (hP.say _ _) fun _ => hP.commits d _ _
  | some pointer =>
    simp only
    split
    · exact hP.bind (hP.say _ _) fun _ => hP.value []
    · exact hP.bind (hP.say _ _) fun _ => hP.commits d _ _

end IsInherited

end DesignTokens.Detector
