import DesignTokens.World
import Mathlib.Data.List.Forall2

/-!
# Outcomes of computations

A computation ends with an answer or a cause, and leaves a state either way. The rules here take it
apart at its binds and recoveries. `Yields` is for runs that only issue commands and print: started
in any world that differs from a given one in what was issued and printed before, such a run gives
an answer with a property and leaves everything else as it is. `Unlogged` is for runs on files: what
was issued and printed before is nothing to them.
-/

namespace DesignTokens

variable {α β : Type}

section Outcome

variable {σ : Type} {x : RunOn σ α} {s s' : σ}

/-- The answer or the cause with which a computation ends, and the state that it leaves. -/
def outcome (x : RunOn σ α) (s : σ) : Except Failure α × σ := x.run.run s

/-- A value ends a computation with itself and leaves the state alone. -/
@[simp] theorem outcome_pure (a : α) (s : σ) : outcome (pure a : RunOn σ α) s = (.ok a, s) := rfl

/-- A cause ends a computation and leaves the state alone. -/
@[simp] theorem outcome_throw (e : Failure) (s : σ) :
    outcome (throw e : RunOn σ α) s = (.error e, s) := rfl

/-- A look at the state gives the state. -/
@[simp] theorem outcome_get (s : σ) : outcome (get : RunOn σ σ) s = (.ok s, s) := rfl

/-- A state that is set is the state that is left. -/
@[simp] theorem outcome_set (s s' : σ) : outcome (set s : RunOn σ Unit) s' = (.ok (), s) := rfl

/-- A change of the state always succeeds. -/
theorem outcome_modify (f : σ → σ) (s : σ) :
    outcome (modify f : RunOn σ Unit) s = (.ok (), f s) := rfl

/-- An answer is handed on together with the state. -/
theorem outcome_bind_of_ok {a : α} (h : outcome x s = (.ok a, s')) (f : α → RunOn σ β) :
    outcome (x >>= f) s = outcome (f a) s' := by
  simp only [outcome, ExceptT.run_bind, StateT.run_bind] at h ⊢
  rw [h]
  rfl

/-- A cause ends what comes after it. -/
theorem outcome_bind_of_error {e : Failure} (h : outcome x s = (.error e, s'))
    (f : α → RunOn σ β) : outcome (x >>= f) s = (.error e, s') := by
  simp only [outcome, ExceptT.run_bind, StateT.run_bind] at h ⊢
  rw [h]
  rfl

/-- An answer that is known without its cause. -/
theorem eq_ok_of_toOption {ε : Type} {r : Except ε α} {a : α} (h : r.toOption = some a) :
    r = .ok a := by
  cases r with
  | error e => cases h
  | ok b => exact congrArg Except.ok (Option.some.inj h)

/-- An answer that is known without the state that is left. -/
theorem exists_outcome_of_toOption {a : α} (h : (outcome x s).1.toOption = some a) :
    ∃ s', outcome x s = (.ok a, s') :=
  ⟨(outcome x s).2, Prod.ext (eq_ok_of_toOption h) rfl⟩

/-- A computation ends in one way. -/
theorem eq_of_outcome {a b : α} {s₁ s₂ : σ} (h₁ : outcome x s = (.ok a, s₁))
    (h₂ : outcome x s = (.ok b, s₂)) : a = b ∧ s₁ = s₂ := by
  obtain ⟨hanswer, hleft⟩ := Prod.mk.inj (h₁.symm.trans h₂)
  exact ⟨Except.ok.inj hanswer, hleft⟩

/-- An answer comes from an answer of what came before. -/
theorem exists_of_outcome_bind {f : α → RunOn σ β} {b : β}
    (h : outcome (x >>= f) s = (.ok b, s')) :
    ∃ a s₁, outcome x s = (.ok a, s₁) ∧ outcome (f a) s₁ = (.ok b, s') := by
  rcases hx : outcome x s with ⟨r, s₁⟩
  cases r with
  | error e =>
    rw [outcome_bind_of_error hx] at h
    cases h
  | ok a =>
    rw [outcome_bind_of_ok hx] at h
    exact ⟨a, s₁, rfl, h⟩

/-- An answer without its content. -/
theorem outcome_discard_of_ok {a : α} (h : outcome x s = (.ok a, s')) :
    outcome (discard x) s = (.ok (), s') := by
  have hbind : discard x = x >>= fun _ => pure () := (bind_pure_comp _ x).symm
  rw [hbind, outcome_bind_of_ok h]
  rfl

/-- A computation whose answer is not wanted fails as before. -/
theorem outcome_discard_of_error {e : Failure} (h : outcome x s = (.error e, s')) :
    outcome (discard x) s = (.error e, s') := by
  have hbind : discard x = x >>= fun _ => pure () := (bind_pure_comp _ x).symm
  rw [hbind, outcome_bind_of_error h]

/-- An answer needs no recovery. -/
theorem outcome_recover_of_ok {a : α} (h : outcome x s = (.ok a, s')) (p : Failure → Bool)
    (handle : Failure → RunOn σ α) : outcome (Run.recover p x handle) s = (.ok a, s') := by
  simp only [outcome, Run.recover, ExceptT.run_tryCatch, StateT.run_bind] at h ⊢
  rw [h]
  rfl

/-- A cause is handled in the state that it leaves, or goes through. -/
theorem outcome_recover_of_error {e : Failure} (h : outcome x s = (.error e, s'))
    (p : Failure → Bool) (handle : Failure → RunOn σ α) :
    outcome (Run.recover p x handle) s = outcome (if p e then handle e else throw e) s' := by
  simp only [outcome, Run.recover, ExceptT.run_tryCatch, StateT.run_bind] at h ⊢
  rw [h]
  rfl

/-- An answer with a recovery is an answer, or comes from the handling of a cause. -/
theorem exists_of_outcome_recover {p : Failure → Bool} {handle : Failure → RunOn σ α} {a : α}
    (h : outcome (Run.recover p x handle) s = (.ok a, s')) :
    outcome x s = (.ok a, s') ∨
      ∃ e s₁, outcome x s = (.error e, s₁) ∧ p e = true ∧ outcome (handle e) s₁ = (.ok a, s') := by
  rcases hx : outcome x s with ⟨r, s₁⟩
  cases r with
  | ok b =>
    rw [outcome_recover_of_ok hx] at h
    exact .inl h
  | error e =>
    rw [outcome_recover_of_error hx] at h
    split at h
    next hp => exact .inr ⟨e, s₁, rfl, hp, h⟩
    next => cases h

/-- An answer for a list comes from answers for its items. -/
theorem forall₂_of_outcome_mapM {f : α → RunOn σ β} {items : List α} {answers : List β}
    (h : outcome (items.mapM f) s = (.ok answers, s')) :
    List.Forall₂ (fun a b => ∃ s₁ s₂, outcome (f a) s₁ = (.ok b, s₂)) items answers := by
  induction items generalizing s answers with
  | nil =>
    cases h
    exact .nil
  | cons a items ih =>
    rw [List.mapM_cons] at h
    obtain ⟨b, s₁, hb, h⟩ := exists_of_outcome_bind h
    obtain ⟨others, s₂, hothers, h⟩ := exists_of_outcome_bind h
    cases h
    exact .cons ⟨s, s₁, hb⟩ (ih hothers)

end Outcome

namespace World

/-- A world before any command is issued and any line is printed in it. -/
def base (w : World) : World := { w with calls := [], output := [], warnings := [] }

/-- Worlds with one base have the same files. -/
theorem files_of_base {w w' : World} (h : w.base = w'.base) : w.files = w'.files :=
  show w.base.files = w'.base.files from congrArg files h

/-- Worlds with one base have the same working directory. -/
theorem directory_of_base {w w' : World} (h : w.base = w'.base) : w.directory = w'.directory :=
  show w.base.directory = w'.base.directory from congrArg directory h

/-- Worlds with one base answer commands alike. -/
theorem git_of_base {w w' : World} (h : w.base = w'.base) : w.git = w'.git :=
  show w.base.git = w'.base.git from congrArg git h

end World

/-- The world after a line about progress. -/
def World.said (w : World) (line : String) : World :=
  if w.verbose then { w with output := w.output ++ [line] } else w

/-- The world after a line. -/
def World.printed (w : World) (line : String) : World := { w with output := w.output ++ [line] }

/-- The world after a warning. -/
def World.warned (w : World) (line : String) : World :=
  { w with warnings := w.warnings ++ [line] }

/-- The world after a command. -/
def World.issued (w : World) (call : GitCall) : World := { w with calls := w.calls ++ [call] }

/-- A line about progress does not change the base. -/
theorem World.base_said (w : World) (line : String) : (w.said line).base = w.base := by
  unfold said
  split <;> rfl

/-- A line about progress is no command. -/
@[simp] theorem World.calls_said (w : World) (line : String) : (w.said line).calls = w.calls := by
  unfold said
  split <;> rfl

/-- Showing progress always succeeds. -/
@[simp] theorem outcome_say (line : String) (w : World) :
    outcome (Run.say line) w = (.ok (), w.said line) := rfl

/-- Printing always succeeds. -/
@[simp] theorem outcome_print (line : String) (w : World) :
    outcome (Run.print line) w = (.ok (), w.printed line) := rfl

/-- Warning always succeeds. -/
@[simp] theorem outcome_warn (line : String) (w : World) :
    outcome (Run.warn line) w = (.ok (), w.warned line) := rfl

/-- A part without effects ends as it is and leaves the world alone. -/
@[simp] theorem outcome_ofExcept (r : Except Failure α) (w : World) :
    outcome (Run.ofExcept r) w = (r, w) := by
  cases r <;> rfl

/-- A command that is answered gives its answer. -/
theorem outcome_ask_of_ok {w : World} {call : GitCall} {text : String}
    (h : w.git.answer w.calls call = .ok text) :
    outcome (Run.ask call) w = (.ok text, w.issued call) := by
  unfold Run.ask
  rw [outcome_bind_of_ok (outcome_get w), outcome_bind_of_ok (outcome_set _ w), h]
  rfl

/-- A command that fails gives the cause. -/
theorem outcome_ask_of_error {w : World} {call : GitCall} {f : GitFailure}
    (h : w.git.answer w.calls call = .error f) :
    outcome (Run.ask call) w = (.error f.cause, w.issued call) := by
  unfold Run.ask
  rw [outcome_bind_of_ok (outcome_get w), outcome_bind_of_ok (outcome_set _ w), h]
  rfl

/-- From every world with the base of `w`, the run gives an answer with the property and leaves
that base. -/
def Yields (w : World) (x : Run α) (p : α → Prop) : Prop :=
  ∀ w₁, w₁.base = w.base → ∃ a w₂, outcome x w₁ = (.ok a, w₂) ∧ w₂.base = w.base ∧ p a

namespace Yields

variable {w : World} {x : Run α} {p q : α → Prop}

/-- A value with the property is such an answer. -/
theorem pure {a : α} (h : p a) : Yields w (pure a) p :=
  fun w₁ hw => ⟨a, w₁, rfl, hw, h⟩

/-- The property may be weakened. -/
theorem imp (h : Yields w x p) (hpq : ∀ a, p a → q a) : Yields w x q := by
  intro w₁ hw
  obtain ⟨a, w₂, hx, hw₂, ha⟩ := h w₁ hw
  exact ⟨a, w₂, hx, hw₂, hpq a ha⟩

/-- If the first run gives an answer, and from each such answer the second does, so do both. -/
theorem bind {f : α → Run β} {r : β → Prop} (h : Yields w x p)
    (hf : ∀ a, p a → Yields w (f a) r) : Yields w (x >>= f) r := by
  intro w₁ hw
  obtain ⟨a, w₂, hx, hw₂, ha⟩ := h w₁ hw
  rw [outcome_bind_of_ok hx]
  exact hf a ha w₂ hw₂

/-- Showing progress gives an answer. -/
theorem say (line : String) : Yields w (Run.say line) fun _ => True := by
  intro w₁ hw
  exact ⟨(), w₁.said line, outcome_say line w₁, (w₁.base_said line).trans hw, trivial⟩

/-- A part without effects that succeeds gives its answer. -/
theorem ofExcept {r : Except Failure α} {a : α} (h : r = .ok a) :
    Yields w (Run.ofExcept r) (· = a) :=
  fun w₁ hw => ⟨a, w₁, h ▸ outcome_ofExcept r w₁, hw, rfl⟩

/-- Warning gives an answer. -/
theorem warn (line : String) : Yields w (Run.warn line) fun _ => True :=
  fun w₁ hw => ⟨(), w₁.warned line, outcome_warn line w₁, hw, trivial⟩

/-- A command that is answered, or fails in a way that is handled. -/
theorem ask_recover {call : GitCall} {f : String → α} {fault : Failure → Bool}
    {handle : Failure → Run α}
    (hanswer : ∀ history text, w.git.answer history call = .ok text → p (f text))
    (hfault : ∀ history e, w.git.answer history call = .error e → fault e.cause = true)
    (hhandle : ∀ e, Yields w (handle e) p) :
    Yields w (Run.recover fault (do return f (← Run.ask call)) handle) p := by
  intro w₁ hw
  have hgit := World.git_of_base hw
  cases h : w₁.git.answer w₁.calls call with
  | ok text =>
    have hask : outcome (do return f (← Run.ask call)) w₁ = (.ok (f text), w₁.issued call) :=
      outcome_bind_of_ok (outcome_ask_of_ok h) _
    exact ⟨f text, _, outcome_recover_of_ok hask _ _, hw, hanswer _ text (hgit ▸ h)⟩
  | error e =>
    have hask : outcome (do return f (← Run.ask call)) w₁ = (.error e.cause, w₁.issued call) :=
      outcome_bind_of_error (outcome_ask_of_error h) _
    rw [outcome_recover_of_error hask, if_pos (hfault _ e (hgit ▸ h))]
    exact hhandle e.cause (w₁.issued call) hw

/-- A run for each item of a list. -/
theorem mapM {f : α → Run β} {r : α → β → Prop} {items : List α}
    (h : ∀ a ∈ items, Yields w (f a) (r a)) :
    Yields w (items.mapM f) fun answers => List.Forall₂ r items answers := by
  induction items with
  | nil => exact Yields.pure .nil
  | cons a items ih =>
    rw [List.mapM_cons]
    refine (h a List.mem_cons_self).bind fun b hb => ?_
    refine (ih fun c hc => h c (List.mem_cons_of_mem a hc)).bind fun answers hanswers => ?_
    exact Yields.pure (.cons hb hanswers)

end Yields

section Agree

variable {σ : Type} {P Q : σ → σ → Prop} {x y : RunOn σ α}

/-- Started in states that `P` relates, two computations give the same and leave states that `Q`
relates. -/
def Agree (P Q : σ → σ → Prop) (x y : RunOn σ α) : Prop :=
  ∀ s s', P s s' → (outcome x s).1 = (outcome y s').1 ∧ Q (outcome x s).2 (outcome y s').2

namespace Agree

/-- The two ways to end, by their outcomes. -/
theorem cases (h : Agree P Q x y) {s s' : σ} (hs : P s s') :
    (∃ a u u', outcome x s = (.ok a, u) ∧ outcome y s' = (.ok a, u') ∧ Q u u') ∨
      ∃ e u u', outcome x s = (.error e, u) ∧ outcome y s' = (.error e, u') ∧ Q u u' := by
  obtain ⟨hanswer, hleft⟩ := h s s' hs
  rcases hx : outcome x s with ⟨r, u⟩
  rcases hy : outcome y s' with ⟨r', u'⟩
  rw [hx, hy] at hanswer hleft
  obtain rfl : r = r' := hanswer
  cases r with
  | ok a => exact .inl ⟨a, u, u', rfl, rfl, hleft⟩
  | error e => exact .inr ⟨e, u, u', rfl, rfl, hleft⟩

/-- A value is the same in all states. -/
theorem pure (a : α) : Agree P P (pure a) (pure a) := fun _ _ h => ⟨rfl, h⟩

/-- A cause is the same in all states. -/
theorem throw (e : Failure) : Agree P P (throw e : RunOn σ α) (throw e) := fun _ _ h => ⟨rfl, h⟩

/-- Computations agree if their first parts do, and what comes after does from any answer. -/
theorem bind {f g : α → RunOn σ β} (h : Agree P Q x y) (hf : ∀ a, Agree Q Q (f a) (g a)) :
    Agree P Q (x >>= f) (y >>= g) := by
  intro s s' hs
  rcases h.cases hs with ⟨a, u, u', hx, hy, hleft⟩ | ⟨e, u, u', hx, hy, hleft⟩
  · rw [outcome_bind_of_ok hx, outcome_bind_of_ok hy]
    exact hf a u u' hleft
  · rw [outcome_bind_of_error hx, outcome_bind_of_error hy]
    exact ⟨rfl, hleft⟩

/-- Computations agree if what is tried does, and what comes after a failure does. -/
theorem recover {handle handle' : Failure → RunOn σ α} (h : Agree P Q x y)
    (fault : Failure → Bool) (hhandle : ∀ e, Agree Q Q (handle e) (handle' e)) :
    Agree P Q (Run.recover fault x handle) (Run.recover fault y handle') := by
  intro s s' hs
  rcases h.cases hs with ⟨a, u, u', hx, hy, hleft⟩ | ⟨e, u, u', hx, hy, hleft⟩
  · rw [outcome_recover_of_ok hx, outcome_recover_of_ok hy]
    exact ⟨rfl, hleft⟩
  · rw [outcome_recover_of_error hx, outcome_recover_of_error hy]
    by_cases hfault : fault e = true
    · rw [if_pos hfault, if_pos hfault]
      exact hhandle e u u' hleft
    · rw [if_neg hfault, if_neg hfault]
      exact throw e u u' hleft

/-- Computations that begin with a look at the state. -/
theorem read {f g : σ → RunOn σ α} (hf : ∀ s s', P s s' → Agree P Q (f s) (g s')) :
    Agree P Q (get >>= f) (get >>= g) := by
  intro s s' hs
  rw [outcome_bind_of_ok (outcome_get s), outcome_bind_of_ok (outcome_get s')]
  exact hf s s' hs s s' hs

/-- Setting related states agrees. -/
theorem set {s s' : σ} (h : Q s s') : Agree P Q (set s : RunOn σ Unit) (set s') :=
  fun _ _ _ => ⟨rfl, h⟩

/-- Computations for each item of a list. -/
theorem forM {items : List α} {f : α → RunOn σ PUnit} (h : ∀ a ∈ items, Agree P P (f a) (f a)) :
    Agree P P (items.forM f) (items.forM f) := by
  induction items with
  | nil => exact pure _
  | cons a items ih =>
    have hcons : (a :: items).forM f = f a >>= fun _ => items.forM f := rfl
    rw [hcons]
    exact (h a List.mem_cons_self).bind fun _ => ih fun b hb => h b (List.mem_cons_of_mem a hb)

end Agree

end Agree

section Advances

variable {σ : Type} {R : σ → σ → Prop} {x : RunOn σ α}

/-- Whatever happens, the computation goes from a state only to states that `R` relates to it. -/
def Advances (R : σ → σ → Prop) (x : RunOn σ α) : Prop := ∀ s, R s (outcome x s).2

namespace Advances

/-- A computation that begins with a look at the state. -/
theorem read {f : σ → RunOn σ α} (hf : ∀ s, R s (outcome (f s) s).2) :
    Advances R (get >>= f) := by
  intro s
  rw [outcome_bind_of_ok (outcome_get s)]
  exact hf s

variable [IsPreorder σ R]

/-- A value leaves the state where it is. -/
theorem pure (a : α) : Advances R (pure a) := fun s => Std.Refl.refl s

/-- A cause leaves the state where it is. -/
theorem throw (e : Failure) : Advances R (throw e : RunOn σ α) := fun s => Std.Refl.refl s

/-- One computation after the other, as far as they come. -/
theorem bind {f : α → RunOn σ β} (hx : Advances R x) (hf : ∀ a, Advances R (f a)) :
    Advances R (x >>= f) := by
  intro s
  have hfirst := hx s
  rcases h : outcome x s with ⟨e | a, s₁⟩
  · rw [h] at hfirst
    rw [outcome_bind_of_error h]
    exact hfirst
  · rw [h] at hfirst
    rw [outcome_bind_of_ok h]
    exact IsTrans.trans _ _ _ hfirst (hf a s₁)

/-- What is tried and what comes after a failure of it both go on from where they start. -/
theorem recover {handle : Failure → RunOn σ α} (hx : Advances R x)
    (fault : Failure → Bool) (hhandle : ∀ e, Advances R (handle e)) :
    Advances R (Run.recover fault x handle) := by
  intro s
  have hfirst := hx s
  rcases h : outcome x s with ⟨e | a, s₁⟩
  · rw [h] at hfirst
    rw [outcome_recover_of_error h]
    by_cases hfault : fault e = true
    · rw [if_pos hfault]
      exact IsTrans.trans _ _ _ hfirst (hhandle e s₁)
    · rw [if_neg hfault]
      exact hfirst
  · rw [h] at hfirst
    rw [outcome_recover_of_ok h]
    exact hfirst

/-- It does not matter to the states whether an answer is wanted. -/
theorem discard (hx : Advances R x) : Advances R (discard x) := by
  have hbind : Functor.discard x = x >>= fun _ => Pure.pure () := (bind_pure_comp _ x).symm
  rw [hbind]
  exact hx.bind fun _ => pure ()

/-- A computation for each item of a list. -/
theorem mapM {f : α → RunOn σ β} (hf : ∀ a, Advances R (f a)) (items : List α) :
    Advances R (items.mapM f) := by
  induction items with
  | nil => exact pure []
  | cons a items ih =>
    rw [List.mapM_cons]
    exact (hf a).bind fun b => ih.bind fun answers => pure (b :: answers)

/-- A loop goes on through the states if its body does for every item. -/
theorem forM {f : α → RunOn σ PUnit} (hf : ∀ a, Advances R (f a)) (items : List α) :
    Advances R (items.forM f) := by
  induction items with
  | nil => exact pure _
  | cons a items ih =>
    have hcons : (a :: items).forM f = f a >>= fun _ => items.forM f := rfl
    rw [hcons]
    exact (hf a).bind fun _ => ih

end Advances

end Advances

section View

variable {σ τ : Type} {view : σ → τ} {x : RunOn σ α}

/-- In states that a view shows alike, the computation gives the same and leaves states that the
view shows alike. -/
def DependsOn (view : σ → τ) (x : RunOn σ α) : Prop :=
  ∀ s s', view s = view s' →
    (outcome x s).1 = (outcome x s').1 ∧ view (outcome x s).2 = view (outcome x s').2

namespace DependsOn

/-- What depends on a view agrees with itself in states that the view shows alike. -/
theorem iff_agree : DependsOn view x ↔
    Agree (fun s s' => view s = view s') (fun s s' => view s = view s') x x := Iff.rfl

/-- A value depends on nothing. -/
theorem pure (a : α) : DependsOn view (pure a) := Agree.pure a

/-- A cause depends on nothing. -/
theorem throw (e : Failure) : DependsOn view (throw e : RunOn σ α) := Agree.throw e

/-- Two parts that depend on what the view shows do so one after the other. -/
theorem bind {f : α → RunOn σ β} (hx : DependsOn view x) (hf : ∀ a, DependsOn view (f a)) :
    DependsOn view (x >>= f) :=
  iff_agree.mpr ((iff_agree.mp hx).bind fun a => iff_agree.mp (hf a))

/-- A try depends on what the view shows if what is tried and what comes after a failure do. -/
theorem recover {handle : Failure → RunOn σ α} (hx : DependsOn view x) (fault : Failure → Bool)
    (hhandle : ∀ e, DependsOn view (handle e)) :
    DependsOn view (Run.recover fault x handle) :=
  iff_agree.mpr ((iff_agree.mp hx).recover fault fun e => iff_agree.mp (hhandle e))

end DependsOn

/-- The computation leaves what a view shows as it is, whatever happens. -/
def Preserves (view : σ → τ) (x : RunOn σ α) : Prop := ∀ s, view (outcome x s).2 = view s

namespace Preserves

/-- What a view shows stays the same from state to state. -/
theorem iff_advances : Preserves view x ↔ Advances (fun s s' => view s' = view s) x := Iff.rfl

/-- To be shown alike is reflexive and transitive. -/
private theorem isPreorder (view : σ → τ) : IsPreorder σ fun s s' => view s' = view s where
  refl _ := rfl
  trans _ _ _ h h' := h'.trans h

/-- Two parts that keep what the view shows do so one after the other. -/
theorem bind {f : α → RunOn σ β} (hx : Preserves view x) (hf : ∀ a, Preserves view (f a)) :
    Preserves view (x >>= f) :=
  haveI := isPreorder view
  Advances.bind (iff_advances.mp hx) fun a => iff_advances.mp (hf a)

/-- A try keeps what the view shows if what is tried and what comes after a failure do. -/
theorem recover {fault : Failure → Bool} {handle : Failure → RunOn σ α} (hx : Preserves view x)
    (hhandle : ∀ e, Preserves view (handle e)) : Preserves view (Run.recover fault x handle) :=
  haveI := isPreorder view
  Advances.recover (iff_advances.mp hx) fault fun e => iff_advances.mp (hhandle e)

end Preserves

end View

/-- What was issued and printed before a run makes no difference to it. -/
def Unlogged (x : Run α) : Prop :=
  ∀ w w', w.base = w'.base →
    (outcome x w).1 = (outcome x w').1 ∧ (outcome x w).2.base = (outcome x w').2.base

namespace Unlogged

variable {x : Run α}

theorem pure (a : α) : Unlogged (pure a) := DependsOn.pure a

/-- A cause is the same whatever was logged. -/
theorem throw (e : Failure) : Unlogged (throw e : Run α) := DependsOn.throw e

/-- Two parts to which the log makes no difference are so one after the other. -/
theorem bind {f : α → Run β} (hx : Unlogged x) (hf : ∀ a, Unlogged (f a)) :
    Unlogged (x >>= f) :=
  DependsOn.bind hx hf

theorem recover {handle : Failure → Run α} (hx : Unlogged x) (fault : Failure → Bool)
    (hhandle : ∀ e, Unlogged (handle e)) : Unlogged (Run.recover fault x handle) :=
  DependsOn.recover hx fault hhandle

/-- A run that looks at the world as its base shows it. -/
theorem read {f : World → Run α} (hbase : ∀ w w', w.base = w'.base → f w = f w')
    (hf : ∀ w, Unlogged (f w)) : Unlogged (get >>= f) := by
  intro w w' h
  rw [outcome_bind_of_ok (outcome_get w), outcome_bind_of_ok (outcome_get w'), hbase w w' h]
  exact hf w' w w' h

/-- A part without effects does not look at the log. -/
theorem ofExcept (r : Except Failure α) : Unlogged (Run.ofExcept r) := by
  cases r with
  | error e => exact throw e
  | ok a => exact pure a

/-- A warning does not depend on what was logged. -/
theorem warn (line : String) : Unlogged (Run.warn line) := fun _ _ h => ⟨rfl, h⟩

/-- The same outcome after other commands and lines, but for these. -/
theorem exists_outcome (hx : Unlogged x) {w w' u : World} {r : Except Failure α}
    (h : outcome x w = (r, u)) (hw : w'.base = w.base) :
    ∃ u', outcome x w' = (r, u') ∧ u'.base = u.base := by
  have hsame := hx w' w hw
  rw [h] at hsame
  exact ⟨(outcome x w').2, Prod.ext hsame.1 rfl, hsame.2⟩

end Unlogged

end DesignTokens
