import DesignTokens.History.Pointer
import DesignTokens.Proofs.Files.Possible
import DesignTokens.Proofs.Files.Tree
import DesignTokens.Proofs.Text.Lines
import DesignTokens.Proofs.Text.Utf8

/-!
# The store of the last processed commit

A hash that a store takes is the one that the store gives back, in memory and in a file alike. For a
file this goes through its bytes, so it needs a hash that reading leaves as it is: without white
space around it, and without carriage returns in it.
-/

namespace DesignTokens

namespace Run

theorem unlogged_requirePath (path : String) : Unlogged (requirePath path) := by
  unfold requirePath
  split
  · exact Unlogged.throw _
  · exact Unlogged.pure ()

/-- Writing depends on the files and on nothing that was issued or printed. -/
theorem unlogged_writeBytes (path : String) (content : List UInt8) :
    Unlogged (writeBytes path content) := by
  refine (unlogged_requirePath path).bind fun _ w w' h => ?_
  rw [outcome_bind_of_ok (outcome_get w), outcome_bind_of_ok (outcome_get w'),
    World.files_of_base h, World.directory_of_base h]
  cases w'.files.write w'.directory path content with
  | error e => exact ⟨rfl, h⟩
  | ok files => exact ⟨rfl, congrArg (fun w => { w with files := files }) h⟩

/-- Making a directory depends on the files and on nothing that was issued or printed. -/
theorem unlogged_makeDirectory (path : String) (existing : Bool) :
    Unlogged (makeDirectory path existing) := by
  refine (unlogged_requirePath path).bind fun _ w w' h => ?_
  have hdirectory : w.isDirectory path = w'.isDirectory path := by
    unfold World.isDirectory
    rw [World.files_of_base h, World.directory_of_base h]
  rw [outcome_bind_of_ok (outcome_get w), outcome_bind_of_ok (outcome_get w'),
    World.files_of_base h, World.directory_of_base h, hdirectory]
  cases w'.files.makeDirectory w'.directory path with
  | ok files => exact ⟨rfl, congrArg (fun w => { w with files := files }) h⟩
  | error e =>
    simp only
    split
    · exact ⟨rfl, h⟩
    · exact ⟨rfl, h⟩

/-- Bytes that have been written are in the files, and nothing else is different. -/
theorem write_of_writeBytes {path : String} {content : List UInt8} {w w₁ : World}
    (h : outcome (writeBytes path content) w = (.ok (), w₁)) :
    ∃ files, w.files.write w.directory path content = .ok files ∧
      w₁ = { w with files := files } := by
  obtain ⟨_, w₂, hrequired, hwritten⟩ := exists_of_outcome_bind h
  obtain ⟨-, rfl⟩ := isPossible_of_requirePath hrequired
  rw [outcome_bind_of_ok (outcome_get w₂)] at hwritten
  cases hwrite : w₂.files.write w₂.directory path content with
  | error e =>
    rw [hwrite] at hwritten
    cases hwritten
  | ok files =>
    rw [hwrite] at hwritten
    exact ⟨files, rfl, (congrArg Prod.snd hwritten).symm⟩

/-- Where bytes can be written, other bytes can be written. -/
theorem exists_writeBytes_of_writeBytes {path : String} {content : List UInt8} {w w₁ : World}
    (h : outcome (writeBytes path content) w = (.ok (), w₁)) (other : List UInt8) :
    ∃ w₂, outcome (writeBytes path other) w = (.ok (), w₂) := by
  obtain ⟨files, hwrite, -⟩ := write_of_writeBytes h
  have hwrite' : ∃ files', w.files.write w.directory path other = .ok files' := by
    unfold FileTree.write at hwrite ⊢
    split at hwrite
    · cases hwrite
    · split at hwrite
      · cases hwrite
      · rename_i hfree
        rw [if_neg hfree]
        exact ⟨_, rfl⟩
  obtain ⟨files', hwrite'⟩ := hwrite'
  obtain ⟨_, w₂, hrequired, -⟩ := exists_of_outcome_bind h
  have hpossible := (isPossible_of_requirePath hrequired).1
  unfold writeBytes
  rw [outcome_bind_of_ok (outcome_requirePath hpossible w), outcome_bind_of_ok (outcome_get w),
    hwrite']
  exact ⟨_, rfl⟩

/-- A path that leads to something is found. -/
theorem outcome_findPath_of_ok {path : String} {w : World} {at_ : Location}
    (h : w.files.locate w.directory path = .ok at_) :
    outcome (findPath path) w = (.ok true, w) := by
  unfold findPath
  rw [outcome_bind_of_ok (outcome_get w), h]
  rfl

/-- A path that leads to nothing is not found, and one that is too long is refused. -/
theorem outcome_findPath_of_error {path : String} {w : World} {fault : FileFault}
    (h : w.files.locate w.directory path = .error fault) :
    outcome (findPath path) w = (if fault = .nameTooLong then
      .error (.file ⟨.nameTooLong, path⟩) else .ok false, w) := by
  unfold findPath
  rw [outcome_bind_of_ok (outcome_get w), h]
  cases fault <;> rfl

/-- A file with a text is found. -/
theorem outcome_findPath_of_textOf {path text : String} {w : World} (h : w.textOf path = .ok text) :
    outcome (findPath path) w = (.ok true, w) := by
  unfold World.textOf at h
  cases hread : w.files.read w.directory path with
  | error e =>
    rw [hread] at h
    cases h
  | ok content =>
    obtain ⟨at_, hlocate⟩ := FileTree.exists_locate_of_read hread
    exact outcome_findPath_of_ok hlocate

/-- A text that has been written is read with line feeds for its newlines. -/
theorem textOf_of_writeText {path text : String} {w w₁ : World}
    (h : outcome (writeText path text) w = (.ok (), w₁)) :
    w₁.textOf path = .ok (String.ofList (Text.unifyNewlines text.toList)) := by
  obtain ⟨files, hwrite, rfl⟩ := write_of_writeBytes h
  have hdirectory : World.directory { w with files := files } = w.directory := rfl
  unfold World.textOf
  rw [hdirectory, FileTree.read_of_write hwrite]
  simp only [Text.Utf8.decode_encode]

/-- Whether a path leads to something depends on the files alone. -/
theorem unlogged_findPath (path : String) : Unlogged (findPath path) := by
  refine Unlogged.read (fun w w' h => ?_) fun w => ?_
  · rw [World.files_of_base h, World.directory_of_base h]
  · split
    · exact Unlogged.pure true
    · exact Unlogged.throw _
    · exact Unlogged.pure false

/-- The text of a file depends on the files alone. -/
theorem unlogged_readText (path : String) : Unlogged (readText path) := by
  refine Unlogged.read (fun w w' h => ?_) fun w => Unlogged.ofExcept _
  unfold World.textOf
  rw [World.files_of_base h, World.directory_of_base h]

end Run

namespace PointerStore

/-- A text holds a hash if something is left of it without the white space around it. -/
theorem hashIn_eq (text : String) :
    hashIn text = if Text.trimString text = "" then none else some (Text.trimString text) := by
  unfold hashIn Text.trimString
  cases h : Text.trim text.toList with
  | nil => rfl
  | cons c s =>
    have hne : String.ofList (c :: s) ≠ "" := by
      intro hempty
      have hlist := congrArg String.toList hempty
      simp at hlist
    rw [if_neg hne]

/-- A text that trimming leaves as a hash is one. -/
theorem hashIn_of_trimString {text hash : String} (h : Text.trimString text = hash)
    (hne : hash ≠ "") : hashIn text = some hash := by
  rw [hashIn_eq, h, if_neg hne]

/-- The hash in a text is the text without the white space around it. -/
theorem trimString_of_hashIn {text hash : String} (h : hashIn text = some hash) :
    Text.trimString text = hash ∧ hash ≠ "" := by
  rw [hashIn_eq] at h
  by_cases hempty : Text.trimString text = ""
  · rw [if_pos hempty] at h
    cases h
  · rw [if_neg hempty] at h
    obtain rfl := Option.some.inj h
    exact ⟨rfl, hempty⟩

/-- Directories are made from the files that there are. -/
theorem unlogged_makeAbove (root : String) (levels : Nat) (reversed : List String) :
    Unlogged (makeAbove root levels reversed) := by
  induction levels generalizing reversed with
  | zero => exact Unlogged.throw _
  | succ levels ih =>
    cases reversed with
    | nil => exact Run.unlogged_makeDirectory _ true
    | cons name above =>
      refine (Run.unlogged_makeDirectory _ true).recover _ fun e => ?_
      exact (ih above).bind fun _ => Run.unlogged_makeDirectory _ true

/-- Whether a file takes a hash depends on the files alone. -/
theorem unlogged_saveTo [Nesting.Room] (path hash : String) : Unlogged (saveTo path hash) :=
  (unlogged_makeAbove _ _ _).bind fun _ => Run.unlogged_writeBytes path _

/-- The store takes a hash in a world. -/
def Takes [Nesting.Room] (store : PointerStore) (w : World) (hash : String) : Prop :=
  match store with
  | .memory _ => True
  | .file path => ∃ w₁, outcome (saveTo path hash) w = (.ok (), w₁)
  | .abstract | .nowhere _ => False

/-- The store holds a hash in a world. -/
def Holds (store : PointerStore) (w : World) (hash : String) : Prop :=
  (outcome store.load w).1 = .ok (some hash)

/-- A store that takes one hash takes every hash. -/
theorem Takes.of_takes [Nesting.Room] {store : PointerStore} {w : World} {hash : String}
    (h : store.Takes w hash) (other : String) : store.Takes w other := by
  cases store with
  | abstract => exact h
  | nowhere halves => exact h
  | memory held => exact h
  | file path =>
    obtain ⟨w₁, hsave⟩ := h
    obtain ⟨_, w₂, habove, hwrite⟩ := exists_of_outcome_bind hsave
    obtain ⟨w₃, hwrite'⟩ :=
      Run.exists_writeBytes_of_writeBytes hwrite (Text.Utf8.encode other.toList)
    exact ⟨w₃, (outcome_bind_of_ok habove _).trans hwrite'⟩

section Kept

variable {store : PointerStore} {hash : String} {w w₁ : World}

/-- What a store holds depends on the files alone. -/
theorem unlogged_load (store : PointerStore) : Unlogged store.load := by
  cases store with
  | abstract => exact Unlogged.throw _
  | memory held => exact Unlogged.pure held
  | nowhere halves => exact Unlogged.pure none
  | file path =>
    refine (Run.unlogged_findPath path).bind fun found => ?_
    cases found with
    | false => exact Unlogged.pure none
    | true =>
      refine Unlogged.recover ?_ _ fun e => (Unlogged.warn _).bind fun _ => Unlogged.pure none
      exact (Run.unlogged_readText path).bind fun text => Unlogged.pure _

/-- A store goes on holding a hash while commands are issued and lines are printed. -/
theorem Holds.of_base (h : store.Holds w hash) (hbase : w₁.base = w.base) :
    store.Holds w₁ hash :=
  (unlogged_load store w₁ w hbase).1.trans h

/-- What a store in a file gives is the trimmed text of the file. -/
theorem outcome_load_of_textOf {path text : String} (h : w.textOf path = .ok text) :
    outcome (PointerStore.file path).load w = (.ok (hashIn text), w) := by
  have hread : outcome (do return hashIn (← Run.readText path)) w = (.ok (hashIn text), w) := by
    unfold Run.readText
    rw [bind_assoc, outcome_bind_of_ok (outcome_get w), h,
      outcome_bind_of_ok (outcome_ofExcept _ w)]
    rfl
  unfold load
  rw [outcome_bind_of_ok (Run.outcome_findPath_of_textOf h)]
  exact outcome_recover_of_ok hread _ _

/-- A file with the text of a hash holds the hash. -/
theorem holds_file_of_writeText {path : String} (hne : hash ≠ "")
    (htrim : Text.trimString hash = hash) (hreturn : '\r' ∉ hash.toList)
    (h : outcome (Run.writeText path hash) w = (.ok (), w₁)) :
    (PointerStore.file path).Holds w₁ hash := by
  have htext := Run.textOf_of_writeText h
  rw [Text.unifyNewlines_of_notMem hreturn, String.ofList_toList] at htext
  have hhash : hashIn hash = some hash := by
    exact hashIn_of_trimString htrim hne
  unfold Holds
  rw [outcome_load_of_textOf htext, hhash]

/-- A store that takes a hash holds it afterwards. -/
theorem exists_save_of_takes [Nesting.Room] (hne : hash ≠ "") (htrim : Text.trimString hash = hash)
    (hreturn : '\r' ∉ hash.toList) (h : store.Takes w hash) (hbase : w₁.base = w.base) :
    ∃ store' w₂, outcome (store.save hash) w₁ = (.ok store', w₂) ∧
      store'.Holds w₂ hash := by
  cases store with
  | abstract => exact h.elim
  | nowhere halves => exact h.elim
  | memory held => exact ⟨.memory (some hash), w₁, rfl, rfl⟩
  | file path =>
    obtain ⟨w₂, hsave⟩ := h
    rcases hsave₁ : outcome (saveTo path hash) w₁ with ⟨answer, w₃⟩
    obtain ⟨hanswer, -⟩ := unlogged_saveTo path hash w₁ w hbase
    rw [hsave₁, hsave] at hanswer
    obtain rfl : answer = .ok () := hanswer
    refine ⟨.file path, w₃, ?_, ?_⟩
    · unfold save
      rw [outcome_bind_of_ok (outcome_recover_of_ok hsave₁ _ _)]
      rfl
    · unfold saveTo at hsave₁
      rcases habove : outcome (makeAbove (PathText.root path) Nesting.Site.pointer.limit
        (PathText.plainSegments path).dropLast.reverse) w₁ with ⟨e | _, w₅⟩
      · rw [outcome_bind_of_error habove] at hsave₁
        cases hsave₁
      · rw [outcome_bind_of_ok habove] at hsave₁
        exact holds_file_of_writeText hne htrim hreturn hsave₁

end Kept

end PointerStore

end DesignTokens
