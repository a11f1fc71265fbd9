import DesignTokens.Proofs.Run

/-!
# Ends of runs

A run changes files, issues commands and prints; where it happens stays as it is. `Ends` says how a
run can end wherever it happens alike: with an answer that has a property, or with a cause of a
kind. It holds of a whole run when it holds of the parts, whatever the files are.
-/

namespace DesignTokens

variable {α β : Type}

/-- A world without what runs change in it: the files, and what was issued and printed. -/
def World.setting (w : World) : World :=
  { w with files := ⟨[]⟩, calls := [], output := [], warnings := [] }

namespace World

variable {w w' : World}

/-- Worlds with one setting have the same version control system. -/
theorem git_of_setting (h : w.setting = w'.setting) : w.git = w'.git :=
  show w.setting.git = w'.setting.git from congrArg git h

/-- Worlds with one setting have the same working directory. -/
theorem workingDirectory_of_setting (h : w.setting = w'.setting) :
    w.workingDirectory = w'.workingDirectory :=
  show w.setting.workingDirectory = w'.setting.workingDirectory from congrArg workingDirectory h

/-- Worlds with one setting belong to the same user. -/
theorem home_of_setting (h : w.setting = w'.setting) : w.home = w'.home :=
  show w.setting.home = w'.setting.home from congrArg home h

/-- Worlds with one setting have the same users. -/
theorem homes_of_setting (h : w.setting = w'.setting) : w.homes = w'.homes :=
  show w.setting.homes = w'.setting.homes from congrArg homes h

/-- Worlds with one setting are at the same time. -/
theorem now_of_setting (h : w.setting = w'.setting) : w.now = w'.now :=
  show w.setting.now = w'.setting.now from congrArg now h

theorem scanMilliseconds_of_setting (h : w.setting = w'.setting) :
    w.scanMilliseconds = w'.scanMilliseconds :=
  show w.setting.scanMilliseconds = w'.setting.scanMilliseconds from congrArg scanMilliseconds h

/-- A line about progress does not change the setting. -/
theorem setting_said (w : World) (line : String) : (w.said line).setting = w.setting := by
  unfold said
  split <;> rfl

end World

/-- An end in a world with the setting of `w`: with an answer that has the property `p`, or with a
cause of the kind `fault`. -/
inductive Ended (w : World) (p : α → Prop) (fault : Failure → Prop) :
    Except Failure α × World → Prop
  | answer {a : α} {left : World} (hleft : left.setting = w.setting) (ha : p a) :
    Ended w p fault (.ok a, left)
  | cause {e : Failure} {left : World} (hleft : left.setting = w.setting) (he : fault e) :
    Ended w p fault (.error e, left)

/-- From every world with the setting of `w`, the run ends in such a world, with an answer that has
the property or with a cause of the kind. -/
def Ends (w : World) (x : Run α) (p : α → Prop) (fault : Failure → Prop) : Prop :=
  ∀ w₁, w₁.setting = w.setting → Ended w p fault (outcome x w₁)

namespace Ends

variable {w : World} {x : Run α} {p q : α → Prop} {fault other : Failure → Prop}

/-- The two ways to end, by their outcomes. -/
theorem cases (h : Ends w x p fault) {w₁ : World} (hw : w₁.setting = w.setting) :
    (∃ a left, outcome x w₁ = (.ok a, left) ∧ left.setting = w.setting ∧ p a) ∨
      ∃ e left, outcome x w₁ = (.error e, left) ∧ left.setting = w.setting ∧ fault e := by
  have hended := h w₁ hw
  rcases hx : outcome x w₁ with ⟨r, left⟩
  rw [hx] at hended
  cases hended with
  | answer hleft ha => exact .inl ⟨_, left, rfl, hleft, ha⟩
  | cause hleft he => exact .inr ⟨_, left, rfl, hleft, he⟩

/-- A value with the property is an answer that is allowed. -/
theorem pure {a : α} (h : p a) : Ends w (pure a) p fault := fun _ hw => .answer hw h

/-- A cause of the allowed kind is a failure that is allowed. -/
theorem throw {e : Failure} (h : fault e) : Ends w (throw e : Run α) p fault :=
  fun _ hw => .cause hw h

/-- What is allowed may be widened. -/
theorem imp (h : Ends w x p fault) (hpq : ∀ a, p a → q a) (hfault : ∀ e, fault e → other e) :
    Ends w x q other := by
  intro w₁ hw
  rcases h.cases hw with ⟨a, left, hx, hleft, ha⟩ | ⟨e, left, hx, hleft, he⟩
  · exact hx ▸ .answer hleft (hpq a ha)
  · exact hx ▸ .cause hleft (hfault e he)

/-- A run ends as allowed if its first part does, and the second from every answer of that. -/
theorem bind {f : α → Run β} {r : β → Prop} (h : Ends w x p fault)
    (hf : ∀ a, p a → Ends w (f a) r fault) : Ends w (x >>= f) r fault := by
  intro w₁ hw
  rcases h.cases hw with ⟨a, left, hx, hleft, ha⟩ | ⟨e, left, hx, hleft, he⟩
  · rw [outcome_bind_of_ok hx]
    exact hf a ha left hleft
  · rw [outcome_bind_of_error hx]
    exact .cause hleft he

/-- A cause that is handled, or goes through. -/
theorem recover {caught : Failure → Bool} {handle : Failure → Run α} (h : Ends w x p fault)
    (hhandle : ∀ e, fault e → caught e = true → Ends w (handle e) p other)
    (hthrough : ∀ e, fault e → caught e = false → other e) :
    Ends w (Run.recover caught x handle) p other := by
  intro w₁ hw
  rcases h.cases hw with ⟨a, left, hx, hleft, ha⟩ | ⟨e, left, hx, hleft, he⟩
  · rw [outcome_recover_of_ok hx]
    exact .answer hleft ha
  · rw [outcome_recover_of_error hx]
    cases hcaught : caught e with
    | false => exact throw (hthrough e he hcaught) left hleft
    | true => exact hhandle e he hcaught left hleft

/-- An answer that is not wanted is any answer. -/
theorem discard (h : Ends w x p fault) : Ends w (discard x) (fun _ => True) fault := by
  have hbind : Functor.discard x = x >>= fun _ => Pure.pure () := (bind_pure_comp _ x).symm
  rw [hbind]
  exact h.bind fun _ _ => pure trivial

/-- A run that begins with a look at the world. -/
theorem read {f : World → Run α} (hf : ∀ w₁, w₁.setting = w.setting → Ends w (f w₁) p fault) :
    Ends w (get >>= f) p fault := by
  intro w₁ hw
  rw [outcome_bind_of_ok (outcome_get w₁)]
  exact hf w₁ hw w₁ hw

/-- The world may be set to another one with the same setting. -/
theorem set {w' : World} (h : w'.setting = w.setting) :
    Ends w (set w' : Run Unit) (fun _ => True) fault := fun _ _ => .answer h trivial

/-- Showing progress always gives an answer. -/
theorem say (line : String) : Ends w (Run.say line) (fun _ => True) fault :=
  fun w₁ hw => .answer ((w₁.setting_said line).trans hw) trivial

/-- Warning always gives an answer. -/
theorem warn (line : String) : Ends w (Run.warn line) (fun _ => True) fault :=
  fun _ hw => .answer hw trivial

/-- A part without effects ends as it does. -/
theorem ofExcept {r : Except Failure α} (hanswer : ∀ a, r = .ok a → p a)
    (hcause : ∀ e, r = .error e → fault e) : Ends w (Run.ofExcept r) p fault := by
  cases r with
  | ok a => exact pure (hanswer a rfl)
  | error e => exact throw (hcause e rfl)

/-- A command, whose failures are causes of the kind. -/
theorem ask {call : GitCall}
    (h : ∀ history f, w.git.answer history call = .error f → fault f.cause) :
    Ends w (Run.ask call) (fun _ => True) fault := by
  unfold Run.ask
  refine read fun w₁ hw => ?_
  have hissued : (w₁.issued call).setting = w.setting := hw
  refine (set hissued).bind fun _ _ => ?_
  cases hanswer : w₁.git.answer w₁.calls call with
  | ok text => exact pure trivial
  | error f =>
    rw [World.git_of_setting hw] at hanswer
    exact throw (h _ f hanswer)

/-- A run for each item of a list. -/
theorem forM {items : List α} {f : α → Run PUnit}
    (h : ∀ a ∈ items, Ends w (f a) (fun _ => True) fault) :
    Ends w (items.forM f) (fun _ => True) fault := by
  induction items with
  | nil => exact pure trivial
  | cons a items ih =>
    have hcons : (a :: items).forM f = f a >>= fun _ => items.forM f := rfl
    rw [hcons]
    exact (h a List.mem_cons_self).bind fun _ _ => ih fun b hb => h b (List.mem_cons_of_mem a hb)

end Ends

end DesignTokens
