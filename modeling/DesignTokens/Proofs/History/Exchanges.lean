import DesignTokens.Proofs.History.Printed

/-!
# Commands and their answers

Everything that passes between a run and the version control system is a list of exchanges, each a
command with what came of it. `Conducts` is for runs that give an answer: which exchanges there were
on the way, all of them and in order. A run for each item of a list has the exchanges of the first
item, then those of the second, and so on.
-/

namespace DesignTokens

variable {α β : Type}

/-- A command and what came of it. -/
structure Exchange where
  call : GitCall
  answer : Except GitFailure String

/-- The version control system answers as in the exchanges, one after the other, when these commands
have been issued before. -/
def GitService.Answers (g : GitService) : List GitCall → List Exchange → Prop
  | _, [] => True
  | before, e :: talk => g.answer before e.call = e.answer ∧ g.Answers (before ++ [e.call]) talk

/-- A talk is answered if its first part is, and then the rest after that. -/
theorem GitService.answers_append {g : GitService} {before : List GitCall}
    {talk more : List Exchange} :
    g.Answers before (talk ++ more) ↔
      g.Answers before talk ∧ g.Answers (before ++ talk.map Exchange.call) more := by
  induction talk generalizing before with
  | nil => simp [Answers]
  | cons e talk ih => simp [Answers, ih, and_assoc]

namespace World

variable {w w₁ w₂ : World} {talk more : List Exchange}

/-- Between two worlds there are these exchanges and no others. -/
structure Exchanges (w w' : World) (talk : List Exchange) : Prop where
  git : w'.git = w.git
  calls : w'.calls = w.calls ++ talk.map Exchange.call
  answers : w.git.Answers w.calls talk

namespace Exchanges

/-- Where nothing happens nothing is exchanged. -/
theorem refl (w : World) : w.Exchanges w [] := ⟨rfl, (List.append_nil _).symm, trivial⟩

/-- What is exchanged comes one after the other. -/
theorem trans (h : w.Exchanges w₁ talk) (h' : w₁.Exchanges w₂ more) :
    w.Exchanges w₂ (talk ++ more) where
  git := h'.git.trans h.git
  calls := by rw [h'.calls, h.calls, List.map_append, List.append_assoc]
  answers := by
    have hmore := h'.answers
    rw [h.git, h.calls] at hmore
    exact GitService.answers_append.mpr ⟨h.answers, hmore⟩

/-- Where the version control system and the commands stay as they are, there is no exchange. -/
theorem of_dialogue (h : w₁.dialogue = w.dialogue) : w.Exchanges w₁ [] :=
  ⟨(Prod.mk.inj h).1, (Prod.mk.inj h).2.trans (List.append_nil _).symm, trivial⟩

/-- A line about progress exchanges nothing. -/
theorem said (w : World) (line : String) : w.Exchanges (w.said line) [] :=
  of_dialogue (Prod.ext (git_of_base (w.base_said line)) (w.calls_said line))

/-- A command exchanges itself for its answer. -/
theorem issued (w : World) (call : GitCall) :
    w.Exchanges (w.issued call) [⟨call, w.git.answer w.calls call⟩] :=
  ⟨rfl, rfl, rfl, trivial⟩

end Exchanges

end World

/-- What is asked for each item of a list, one item after the other, and what comes of each. -/
inductive InTurn (p : α → β → List Exchange → Prop) : List α → List β → List Exchange → Prop
  | nil : InTurn p [] [] []
  | cons {a : α} {b : β} {items : List α} {answers : List β} {talk more : List Exchange}
    (h : p a b talk) (hmore : InTurn p items answers more) :
    InTurn p (a :: items) (b :: answers) (talk ++ more)

namespace InTurn

variable {γ : Type} {p q : α → β → List Exchange → Prop} {items : List α} {answers : List β}
  {talk : List Exchange}

/-- The property of each turn may be weakened. -/
theorem imp (h : InTurn p items answers talk) (hpq : ∀ a b talk, p a b talk → q a b talk) :
    InTurn q items answers talk := by
  induction h with
  | nil => exact .nil
  | cons h _ ih => exact .cons (hpq _ _ _ h) ih

/-- What comes of the items may be told by something computed from it. -/
theorem map {p : α → γ → List Exchange → Prop} (f : β → γ)
    (h : InTurn (fun a b => p a (f b)) items answers talk) :
    InTurn p items (answers.map f) talk := by
  induction h with
  | nil => exact .nil
  | cons h _ ih => exact .cons h ih

/-- The items may be told by something computed from them. -/
theorem of_map {p : γ → β → List Exchange → Prop} {f : α → γ}
    (h : InTurn p (items.map f) answers talk) : InTurn (fun a => p (f a)) items answers talk := by
  induction items generalizing answers talk with
  | nil =>
    cases h
    exact .nil
  | cons a items ih =>
    cases h with
    | cons h hmore => exact .cons h (ih hmore)

/-- The answers may take the place of the items that they determine. -/
theorem of_answers {p : β → γ → List Exchange → Prop} (f : β → α) (g : β → γ)
    (h : InTurn (fun a b talk => f b = a ∧ p b (g b) talk) items answers talk) :
    answers.map f = items ∧ InTurn p answers (answers.map g) talk := by
  induction h with
  | nil => exact ⟨rfl, .nil⟩
  | cons h _ ih => exact ⟨by rw [List.map_cons, h.1, ih.1], .cons h.2 ih.2⟩

end InTurn

section Conducts

variable {σ : Type} {view : σ → World} {x : RunOn σ α} {p q : α → List Exchange → Prop}

/-- If the computation gives an answer, then these are the exchanges on the way, in the world that a
view shows of the state. -/
def Conducts (view : σ → World) (x : RunOn σ α) (p : α → List Exchange → Prop) : Prop :=
  ∀ ⦃s a s'⦄, outcome x s = (.ok a, s') → ∃ talk, (view s).Exchanges (view s') talk ∧ p a talk

namespace Conducts

/-- A value exchanges nothing. -/
theorem pure {a : α} (h : p a []) : Conducts view (pure a) p := by
  intro s b s' hb
  cases hb
  exact ⟨[], .refl _, h⟩

/-- The property may be weakened. -/
theorem imp (h : Conducts view x p) (hpq : ∀ a talk, p a talk → q a talk) :
    Conducts view x q := by
  intro s a s' ha
  obtain ⟨talk, htalk, hp⟩ := h ha
  exact ⟨talk, htalk, hpq a talk hp⟩

/-- First the exchanges of one computation, then those of the next. -/
theorem bind {f : α → RunOn σ β} {r : β → List Exchange → Prop} (h : Conducts view x p)
    (hf : ∀ a talk, p a talk → Conducts view (f a) fun b more => r b (talk ++ more)) :
    Conducts view (x >>= f) r := by
  intro s b s' hb
  obtain ⟨a, s₁, ha, hb⟩ := exists_of_outcome_bind hb
  obtain ⟨talk, htalk, hp⟩ := h ha
  obtain ⟨more, hmore, hr⟩ := hf a talk hp hb
  exact ⟨talk ++ more, htalk.trans hmore, hr⟩

/-- A computation for each item of a list. -/
theorem mapM {f : α → RunOn σ β} {r : α → β → List Exchange → Prop}
    (h : ∀ a, Conducts view (f a) (r a)) (items : List α) :
    Conducts view (items.mapM f) (InTurn r items) := by
  induction items with
  | nil => exact Conducts.pure .nil
  | cons a items ih =>
    rw [List.mapM_cons]
    refine (h a).bind fun b talk hb => ih.bind fun answers more hmore => Conducts.pure ?_
    rw [List.append_nil]
    exact .cons hb hmore

end Conducts

end Conducts

namespace Run

/-- The exchanges of a run that gives an answer. -/
abbrev Conducts (x : Run α) (p : α → List Exchange → Prop) : Prop := DesignTokens.Conducts id x p

namespace Conducts

/-- Showing progress exchanges nothing. -/
theorem say (line : String) : Run.Conducts (Run.say line) fun _ talk => talk = [] := by
  intro w a w' h
  cases h
  exact ⟨[], .said w line, rfl⟩

/-- A part without effects exchanges nothing. -/
theorem ofExcept (r : Except Failure α) :
    Run.Conducts (Run.ofExcept r) fun a talk => r = .ok a ∧ talk = [] := by
  intro w a w' h
  obtain ⟨hanswer, hleft⟩ := Prod.mk.inj ((outcome_ofExcept r w).symm.trans h)
  subst hleft
  exact ⟨[], .refl w, hanswer, rfl⟩

/-- A run that leaves the version control system alone has no exchange. -/
theorem of_spares {x : Run α} (h : Run.Spares World.dialogue x) :
    Run.Conducts x fun _ talk => talk = [] := by
  intro w a w' hx
  have hkept := h.kept w
  rw [hx] at hkept
  exact ⟨[], .of_dialogue hkept, rfl⟩

/-- One command is issued; where it fails by itself there is a value in place of its answer. -/
theorem ask {call : GitCall} {f : String → α} {line : Failure → String} {a : α} :
    Run.Conducts (Run.recover Failure.isGit (do return f (← Run.ask call)) fun e => do
      Run.warn (line e)
      Pure.pure a) fun b talk =>
        (∃ text, talk = [⟨call, .ok text⟩] ∧ b = f text) ∨
          ∃ e, e.cause.isGit = true ∧ talk = [⟨call, .error e⟩] ∧ b = a := by
  intro w b w' h
  have hissued := World.Exchanges.issued w call
  cases hanswer : w.git.answer w.calls call with
  | ok text =>
    have hask : outcome (do return f (← Run.ask call)) w = (.ok (f text), w.issued call) :=
      outcome_bind_of_ok (outcome_ask_of_ok hanswer) _
    rw [outcome_recover_of_ok hask] at h
    cases h
    rw [hanswer] at hissued
    exact ⟨_, hissued, .inl ⟨text, rfl, rfl⟩⟩
  | error e =>
    have hask : outcome (do return f (← Run.ask call)) w = (.error e.cause, w.issued call) :=
      outcome_bind_of_error (outcome_ask_of_error hanswer) _
    rw [outcome_recover_of_error hask] at h
    rw [hanswer] at hissued
    by_cases hgit : e.cause.isGit = true
    · rw [if_pos hgit, outcome_bind_of_ok (outcome_warn _ _)] at h
      cases h
      exact ⟨_, hissued.trans (.of_dialogue rfl), .inr ⟨e, hgit, rfl, rfl⟩⟩
    · rw [if_neg hgit] at h
      cases h

end Conducts

end Run

namespace Detection

/-- The exchanges of a detection that gives an answer. -/
abbrev Conducts (x : Detection α) (p : α → List Exchange → Prop) : Prop :=
  DesignTokens.Conducts Prod.snd x p

/-- The answer of a run as a detection is that of the run. -/
theorem exists_of_outcome_ofRun {x : Run α} {d : Detector} {w : World} {a : α}
    {s : Detector × World} (h : outcome (ofRun x) (d, w) = (.ok a, s)) :
    ∃ w₁, s = (d, w₁) ∧ outcome x w = (.ok a, w₁) := by
  rcases hx : outcome x w with ⟨r, w₁⟩
  rw [outcome_ofRun hx] at h
  cases h
  exact ⟨w₁, rfl, rfl⟩

/-- An answer after a run comes from an answer of the run. -/
theorem exists_of_outcome_bind_ofRun {x : Run α} {f : α → Detection β} {d : Detector} {w : World}
    {b : β} {s : Detector × World} (h : outcome (ofRun x >>= f) (d, w) = (.ok b, s)) :
    ∃ a w₁, outcome x w = (.ok a, w₁) ∧ outcome (f a) (d, w₁) = (.ok b, s) := by
  obtain ⟨a, s₁, hrun, hnext⟩ := exists_of_outcome_bind h
  obtain ⟨w₁, rfl, hx⟩ := exists_of_outcome_ofRun hrun
  exact ⟨a, w₁, hx, hnext⟩

namespace Conducts

theorem detector : Detection.Conducts detector fun _ talk => talk = [] := by
  intro s a s' h
  cases h
  exact ⟨[], .refl _, rfl⟩

theorem put (d : Detector) : Detection.Conducts (put d) fun _ talk => talk = [] := by
  intro s a s' h
  cases h
  exact ⟨[], .refl _, rfl⟩

/-- A run inside a detection exchanges what it does on its own. -/
theorem ofRun {x : Run α} {p : α → List Exchange → Prop} (h : Run.Conducts x p) :
    Detection.Conducts (ofRun x) p := by
  rintro ⟨d, w⟩ a s' ha
  obtain ⟨w₁, rfl, hx⟩ := exists_of_outcome_ofRun ha
  exact h hx

end Conducts

end Detection

end DesignTokens
