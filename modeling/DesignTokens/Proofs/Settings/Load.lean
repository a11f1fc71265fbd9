import DesignTokens.Proofs.Files.Root
import DesignTokens.Proofs.Lists
import DesignTokens.Proofs.Run
import DesignTokens.Proofs.Value.Reader
import DesignTokens.Settings.Document

/-!
# Loading the configuration

Whoever reads the configuration expects an answer or a fault of the configuration, and handles
nothing else. Of what can go wrong when the file is loaded, three things come out as they are: bytes
that are no text, a whole number with too many digits, and lists and objects too deep inside one
another.
-/

namespace DesignTokens.Settings

/-- A reading of the configuration ends in order: with an answer, or with a fault of the
configuration. -/
inductive IsOrderly {α : Type} : Except Failure α → Prop
  | answer (a : α) : IsOrderly (.ok a)
  | refusal (fault : SettingsFault) : IsOrderly (.error (.settings fault))

variable {α β : Type}

theorem isOrderly_ok (a : α) : IsOrderly (.ok a) := .answer a

theorem isOrderly_error_iff {e : Failure} :
    IsOrderly (.error e : Except Failure α) ↔ ∃ fault, e = .settings fault := by
  constructor
  · rintro ⟨⟩
    exact ⟨_, rfl⟩
  · rintro ⟨fault, rfl⟩
    exact .refusal fault

/-- Two readings, one after the other. -/
theorem isOrderly_bind_iff {x : Except Failure α} {f : α → Except Failure β} :
    IsOrderly (x >>= f) ↔ IsOrderly x ∧ ∀ a, x = .ok a → IsOrderly (f a) := by
  cases x with
  | ok a =>
    rw [and_iff_right (isOrderly_ok a)]
    refine ⟨?_, fun h => h a rfl⟩
    rintro h _ ⟨⟩
    exact h
  | error e =>
    change IsOrderly (.error e) ↔ _
    rw [isOrderly_error_iff, isOrderly_error_iff, and_iff_left nofun]

/-- Readings of the items of a list, one after the other. -/
theorem isOrderly_mapM {f : α → Except Failure β} {xs : List α} (h : ∀ x ∈ xs, IsOrderly (f x)) :
    IsOrderly (xs.mapM f) := by
  induction xs with
  | nil => exact .answer []
  | cons x xs ih =>
    rw [List.mapM_cons]
    refine isOrderly_bind_iff.mpr ⟨h x List.mem_cons_self, fun y _ => ?_⟩
    refine isOrderly_bind_iff.mpr ⟨ih fun x hx => h x (List.mem_cons_of_mem _ hx), fun ys _ => ?_⟩
    exact isOrderly_ok _

/-- Readings that find no fault with the configuration, one after the other: each of them has to
give an answer. -/
theorem isOrderly_mapM_iff {f : α → Except Failure β} {xs : List α}
    (h : ∀ x ∈ xs, IsOrderly (f x) → ∃ y, f x = .ok y) :
    IsOrderly (xs.mapM f) ↔ ∀ x ∈ xs, IsOrderly (f x) := by
  refine ⟨fun horder => ?_, isOrderly_mapM⟩
  induction xs with
  | nil => exact nofun
  | cons x xs ih =>
    obtain ⟨hx, hxs⟩ := List.forall_mem_cons.mp h
    rw [List.mapM_cons, isOrderly_bind_iff] at horder
    obtain ⟨hfirst, hrest⟩ := horder
    obtain ⟨y, hy⟩ := hx hfirst
    exact List.forall_mem_cons.mpr ⟨hfirst, ih hxs (isOrderly_bind_iff.mp (hrest y hy)).1⟩

section Load

variable {w : World} {path : String} {given : Option String}

/-- Whether a path can be read as a text decides what the reading of a document gives. -/
theorem outcome_readDocument (path : String) (w : World) :
    outcome (readDocument path) w = (match w.textOf path with
      | .ok text => .ok text
      | .error (.file error) => .error (.settings (.unreadable path error))
      | .error e => .error e, w) := by
  have hread : outcome (Run.readText path) w = (w.textOf path, w) := by
    unfold Run.readText
    rw [outcome_bind_of_ok (outcome_get w), outcome_ofExcept]
  unfold readDocument
  simp only [outcome, ExceptT.run_tryCatch, StateT.run_bind] at hread ⊢
  rw [hread]
  cases w.textOf path with
  | ok text => rfl
  | error e => cases e <;> rfl

/-- A document is read in order unless the reader comes to one of its limits. -/
theorem isOrderly_ofDocument_iff [Nesting.Room] (path : String) (document : List Char) :
    IsOrderly (ofDocument path document) ↔
      ∀ s, Value.ComesTo document s → s.isOverlong = false ∧ s.isTooDeep = false := by
  have hlimits : (∀ s, Value.ComesTo document s → s.isOverlong = false ∧ s.isTooDeep = false) ↔
      (¬∃ digits, Value.parse document = .error (.tooLong digits)) ∧
        ¬∃ innermost, Value.parse document = .error (.tooDeep innermost) := by
    rw [Value.exists_parse_eq_tooLong_iff, Value.exists_parse_eq_tooDeep_iff]
    simp only [not_exists, not_and, Bool.not_eq_true, ← forall_and]
  rw [hlimits]
  unfold ofDocument
  cases Value.parse document with
  | ok v =>
    refine iff_of_true ?_ ⟨nofun, nofun⟩
    cases v <;> constructor
  | error fault =>
    cases fault with
    | malformed complaint position => exact iff_of_true (.refusal _) ⟨nofun, nofun⟩
    | tooLong digits => exact iff_of_false nofun fun h => h.1 ⟨digits, rfl⟩
    | tooDeep innermost => exact iff_of_false nofun fun h => h.2 ⟨innermost, rfl⟩

/-- Settings that are read from a document are the members of the object in it. -/
theorem parse_of_ofDocument [Nesting.Room] {document : List Char} {settings : Settings}
    (h : ofDocument path document = .ok settings) :
    Value.parse document = .ok (.object settings.members) := by
  unfold ofDocument at h
  split at h
  next members hparse =>
    obtain rfl := Except.ok.inj h
    exact hparse
  all_goals cases h

theorem pathExists_of_read {bytes : List UInt8} (h : w.files.read w.directory path = .ok bytes) :
    w.pathExists path = true := by
  unfold World.pathExists FileTree.pathExists
  unfold FileTree.read at h
  split at h
  next => cases h
  next hlocate => rw [hlocate]

/-- A configuration that is not read as a text is absent, or its file is no file, or its bytes are
no text. -/
theorem outcome_load [Nesting.Room] (w : World) (given : Option String) :
    outcome (load given) w = (match w.files.read w.directory (pathFor w given) with
      | .ok bytes =>
        match Text.Utf8.decode bytes with
        | .ok document => ofDocument (pathFor w given) (Text.unifyNewlines document)
        | .error fault => .error (.notUtf8 fault)
      | .error error =>
        if w.pathExists (pathFor w given) then
          .error (.settings (.unreadable (pathFor w given) error))
        else .ok ⟨[]⟩, w) := by
  unfold load
  rw [outcome_bind_of_ok (outcome_get w)]
  have hdocument := outcome_readDocument (pathFor w given) w
  cases hread : w.files.read w.directory (pathFor w given) with
  | error error =>
    simp only [World.textOf, hread] at hdocument
    dsimp only
    split
    · rw [outcome_bind_of_error hdocument]
    · rfl
  | ok bytes =>
    simp only [World.textOf, hread] at hdocument
    dsimp only
    rw [if_pos (pathExists_of_read hread)]
    cases hdecode : Text.Utf8.decode bytes with
    | error fault =>
      rw [hdecode] at hdocument
      rw [outcome_bind_of_error hdocument]
    | ok document =>
      rw [hdecode] at hdocument
      rw [outcome_bind_of_ok hdocument, outcome_ofExcept, String.toList_ofList]

/-- The configuration is loaded in order exactly when the bytes of its file, if there is one, are a
text in which the reader comes neither to a whole number with too many digits nor to a list or an
object inside as many as may be inside one another. What is loaded from a file are the members of
the object in it. -/
theorem isOrderly_load_iff [Nesting.Room] (w : World) (given : Option String) :
    (IsOrderly (outcome (load given) w).1 ↔
      ∀ bytes, w.files.read w.directory (pathFor w given) = .ok bytes →
        ∃ document, Text.Utf8.decode bytes = .ok document ∧
          ∀ s, Value.ComesTo (Text.unifyNewlines document) s →
            s.isOverlong = false ∧ s.isTooDeep = false) ∧
    ∀ settings bytes, (outcome (load given) w).1 = .ok settings →
      w.files.read w.directory (pathFor w given) = .ok bytes →
        ∃ document, Text.Utf8.decode bytes = .ok document ∧
          Value.parse (Text.unifyNewlines document) = .ok (.object settings.members) := by
  rw [outcome_load]
  cases w.files.read w.directory (pathFor w given) with
  | error error =>
    refine ⟨iff_of_true ?_ nofun, nofun⟩
    dsimp only
    split
    · exact .refusal _
    · exact .answer _
  | ok bytes =>
    simp only [Except.ok.injEq, forall_eq']
    cases hdecode : Text.Utf8.decode bytes with
    | error fault => exact ⟨iff_of_false nofun nofun, fun _ => nofun⟩
    | ok document =>
      simp only [Except.ok.injEq, exists_eq_left']
      refine ⟨isOrderly_ofDocument_iff _ _, ?_⟩
      rintro settings _ hloaded rfl
      exact ⟨document, hdecode, parse_of_ofDocument hloaded⟩

/-- The byte 255 as the file of the configuration, which no text has. -/
def strayByte : FileTree := ⟨[([".token-scanner-config.json"], .file [0xFF])]⟩

/-- Not every configuration file is loaded in order: that its bytes are no text comes out as it
is. -/
theorem not_forall_isOrderly_load : ¬∃ _ : Nesting.Room,
    ∀ (w : World) (given : Option String), IsOrderly (outcome (load given) w).1 := by
  rintro ⟨_, h⟩
  have hfailed : (outcome (load none) (World.ofFiles strayByte)).1 =
      .error (.notUtf8 ⟨0, 1, 0xFF, .startByte⟩) := rfl
  have horder := h (World.ofFiles strayByte) none
  rw [hfailed] at horder
  cases horder

end Load

end DesignTokens.Settings
