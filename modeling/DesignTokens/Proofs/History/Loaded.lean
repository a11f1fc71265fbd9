import DesignTokens.Proofs.Files.Root
import DesignTokens.Proofs.History.Restart

/-!
# Loading the last processed commit

A detector begins with what its store gives it. A file in which nothing is left without white space
gives no commit, and so does a file that is not there or cannot be read. Two refusals are not meant
to be handled, though: that of a path that is too long, and that of bytes that are no text.
-/

namespace DesignTokens

namespace PointerStore

/-- What a detector can begin with: no commit, or a hash without white space around it. -/
def IsPointer (pointer : Option String) : Prop :=
  ∀ hash, pointer = some hash → hash ≠ "" ∧ Text.trimString hash = hash

theorem isPointer_hashIn (text : String) : IsPointer (hashIn text) := by
  intro hash hhash
  obtain ⟨rfl, hne⟩ := trimString_of_hashIn hhash
  exact ⟨hne, Text.trimString_trimString text⟩

/-- How loading from a file ends, and the world that it leaves. -/
inductive Loads (path : String) (w : World) : Except Failure (Option String) × World → Prop
  | text {bytes : List UInt8} {document : List Char}
    (hread : w.files.read w.directory path = .ok bytes)
    (hdecode : Text.Utf8.decode bytes = .ok document) :
    Loads path w (.ok (hashIn (String.ofList (Text.unifyNewlines document))), w)
  | absent {fault : FileFault} (hlocate : w.files.locate w.directory path = .error fault)
    (hfault : fault ≠ .nameTooLong) : Loads path w (.ok none, w)
  | refused {error : FileError} {warning : String} {at_ : Location}
    (hlocate : w.files.locate w.directory path = .ok at_)
    (hread : w.files.read w.directory path = .error error) :
    Loads path w (.ok none, w.warned warning)
  | tooLong (hlocate : w.files.locate w.directory path = .error .nameTooLong) :
    Loads path w (.error (.file ⟨.nameTooLong, path⟩), w)
  | undecoded {bytes : List UInt8} {fault : Text.Utf8.Fault}
    (hread : w.files.read w.directory path = .ok bytes)
    (hdecode : Text.Utf8.decode bytes = .error fault) : Loads path w (.error (.notUtf8 fault), w)

section File

variable {path : String} {w : World}

/-- A file that is there but has no text to read gives no commit and a warning, if its cause is one
that is handled. -/
theorem outcome_load_of_error {at_ : Location} {e : Failure}
    (hlocate : w.files.locate w.directory path = .ok at_) (h : w.textOf path = .error e) :
    outcome (PointerStore.file path).load w =
      if isFile e then (.ok none, w.warned (Terminal.paint Terminal.red
        ("✖ Error loading last processed commit from " ++ path ++ ": " ++ e.message)))
      else (.error e, w) := by
  have hread : outcome (do return hashIn (← Run.readText path)) w = (.error e, w) := by
    unfold Run.readText
    rw [bind_assoc, outcome_bind_of_ok (outcome_get w), h,
      outcome_bind_of_error (outcome_ofExcept _ w)]
  unfold load
  rw [outcome_bind_of_ok (Run.outcome_findPath_of_ok hlocate)]
  refine (outcome_recover_of_error hread _ _).trans ?_
  split <;> rfl

theorem loads_file (path : String) (w : World) :
    Loads path w (outcome (PointerStore.file path).load w) := by
  cases hlocate : w.files.locate w.directory path with
  | error fault =>
    have hfind := Run.outcome_findPath_of_error hlocate
    unfold load
    split at hfind
    · rename_i hfault
      rw [outcome_bind_of_error hfind]
      exact .tooLong (hfault ▸ hlocate)
    · rename_i hfault
      rw [outcome_bind_of_ok hfind]
      exact .absent hlocate hfault
  | ok at_ =>
    cases hread : w.files.read w.directory path with
    | error error =>
      have htext : w.textOf path = .error (.file error) := by rw [World.textOf, hread]
      rw [outcome_load_of_error hlocate htext]
      exact .refused hlocate hread
    | ok bytes =>
      cases hdecode : Text.Utf8.decode bytes with
      | error fault =>
        have htext : w.textOf path = .error (.notUtf8 fault) := by
          simp only [World.textOf, hread, hdecode]
        rw [outcome_load_of_error hlocate htext]
        exact .undecoded hread hdecode
      | ok document =>
        have htext : w.textOf path = .ok (String.ofList (Text.unifyNewlines document)) := by
          simp only [World.textOf, hread, hdecode]
        rw [outcome_load_of_textOf htext]
        exact .text hread hdecode

/-- A detector can begin with the commit in a file, whatever it watches. -/
structure IsHarmless (path : String) (w : World) : Prop where
  /-- Loading gives what a detector can begin with. -/
  loads : ∃ pointer left, outcome (PointerStore.file path).load w = (.ok pointer, left) ∧
    IsPointer pointer
  /-- A detector begins. -/
  starts : ∀ repository lookbackHours lookahead, ∃ d left,
    outcome (Detector.start repository (.file path) lookbackHours lookahead) w = (.ok d, left)

theorem isHarmless_of_load {pointer : Option String} {left : World}
    (h : outcome (PointerStore.file path).load w = (.ok pointer, left))
    (hpointer : IsPointer pointer) : IsHarmless path w where
  loads := ⟨pointer, left, h, hpointer⟩
  starts repository lookbackHours lookahead := by
    obtain ⟨left', hstart, -⟩ := Detector.exists_outcome_start (congrArg Prod.fst h) repository
      lookbackHours lookahead
    exact ⟨_, left', hstart⟩

theorem IsHarmless.load_ne_error (h : IsHarmless path w) (e : Failure) (left : World) :
    outcome (PointerStore.file path).load w ≠ (.error e, left) := by
  obtain ⟨pointer, left', hload, -⟩ := h.loads
  rw [hload]
  exact nofun

/-- Loading from a file is harmless exactly when its path is not too long to be looked at and the
bytes in it, if it is a file, are those of a text. -/
theorem isHarmless_iff (path : String) (w : World) :
    IsHarmless path w ↔
      w.files.locate w.directory path ≠ .error .nameTooLong ∧
        ∀ bytes, w.files.read w.directory path = .ok bytes →
          ∃ text, bytes = Text.Utf8.encode text := by
  have hloads := loads_file path w
  generalize hload : outcome (PointerStore.file path).load w = ended at hloads
  cases hloads with
  | @text bytes document hread hdecode =>
    refine iff_of_true (isHarmless_of_load hload (isPointer_hashIn _)) ⟨?_, fun bytes' hread' => ?_⟩
    · obtain ⟨at_, hlocate⟩ := FileTree.exists_locate_of_read hread
      rw [hlocate]
      exact nofun
    · obtain rfl : bytes = bytes' := Except.ok.inj (hread.symm.trans hread')
      exact ⟨document, Text.Utf8.decode_eq_ok_iff.mp hdecode⟩
  | absent hlocate hfault =>
    refine iff_of_true (isHarmless_of_load hload nofun) ⟨?_, fun bytes hread => ?_⟩
    · rw [hlocate]
      exact fun heq => hfault (Except.error.inj heq)
    · obtain ⟨at_, hfound⟩ := FileTree.exists_locate_of_read hread
      rw [hlocate] at hfound
      cases hfound
  | refused hlocate hread =>
    refine iff_of_true (isHarmless_of_load hload nofun) ⟨?_, fun bytes hread' => ?_⟩
    · rw [hlocate]
      exact nofun
    · rw [hread] at hread'
      cases hread'
  | tooLong hlocate => exact iff_of_false (fun h => h.load_ne_error _ _ hload) fun h => h.1 hlocate
  | undecoded hread hdecode =>
    refine iff_of_false (fun h => h.load_ne_error _ _ hload) fun h => ?_
    obtain ⟨text, rfl⟩ := h.2 _ hread
    rw [Text.Utf8.decode_encode] at hdecode
    cases hdecode

/-- The byte 255 as the file with the last processed commit. -/
def strayPointer : FileTree := ⟨[(["last"], .file [0xFF])]⟩

/-- A file may hold bytes that are no text, and loading from it ends with that cause. -/
theorem not_forall_isHarmless : ¬∀ path w, IsHarmless path w := by
  intro h
  have hfailed : outcome (PointerStore.file "last").load (World.ofFiles strayPointer) =
      (.error (.notUtf8 ⟨0, 1, 0xFF, .startByte⟩), World.ofFiles strayPointer) := rfl
  exact (h "last" (World.ofFiles strayPointer)).load_ne_error _ _ hfailed

end File

end PointerStore

end DesignTokens
