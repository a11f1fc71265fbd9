import DesignTokens.Diff.Changes
import DesignTokens.Files.PathText
import DesignTokens.History.TokenFile

/-!
# Commits and their token changes

A commit with the token files it touches, and the flat records that tell one change each. A file
that was added without changes read from it counts as one new token named after the file.
-/

namespace DesignTokens

/-- What happened to a file. -/
inductive FileChangeKind
  | added
  | modified
  | deleted
  deriving DecidableEq, Repr, Inhabited

namespace FileChangeKind

/-- The word for what happened. -/
def word : FileChangeKind → String
  | added => "added"
  | modified => "modified"
  | deleted => "deleted"

/-- What a word stands for. -/
def ofWord? (s : String) : Option FileChangeKind :=
  [added, modified, deleted].find? fun k => k.word == s

/-- What a status of the version control system says; renamed and copied files count as
modified. -/
def ofStatus (status : List Char) : FileChangeKind :=
  match status with
  | 'A' :: _ => added
  | 'D' :: _ => deleted
  | _ => modified

end FileChangeKind

/-- A token file that a commit touches. -/
structure FileChange where
  kind : FileChangeKind
  file : String
  /-- The diff of a modified file. -/
  diff : Option String
  /-- The changes read from the diff. -/
  tokenChanges : Option (List TokenChange)
  deriving DecidableEq, Repr, Inhabited

/-- The fields of a change as an object. -/
def FileChange.toValue (c : FileChange) : Value :=
  .object
    [ ("type", .text c.kind.word), ("file", .text c.file), ("diff", .ofText? c.diff),
      ("token_changes", match c.tokenChanges with
        | some changes => .list (changes.map TokenChange.toValue)
        | none => .null) ]

/-- A commit and the token files it touches. -/
structure Commit where
  hash : String
  author : String
  date : String
  message : String
  changes : List FileChange
  deriving DecidableEq, Repr, Inhabited

namespace Commit

/-- The first eight characters of the hash. -/
def shortHash (c : Commit) : String := String.ofList (c.hash.toList.take 8)

/-- The fields of a commit as an object. -/
def toValue (c : Commit) : Value :=
  .object
    [ ("hash", .text c.hash), ("author", .text c.author), ("date", .text c.date),
      ("message", .text c.message), ("changes", .list (c.changes.map FileChange.toValue)) ]

end Commit

/-- One token change with what tells where it comes from. -/
structure ChangeRecord where
  kind : ChangeWord
  tokenName : String
  category : String
  filePath : String
  description : String
  commit : String
  oldValue : Option String
  newValue : Option String
  deriving DecidableEq, Repr

namespace ChangeRecord

/-- A removed token deserves a warning. -/
def severity (r : ChangeRecord) : String :=
  if r.kind = .removed then "warning" else "info"

/-- The record of a change of a token. -/
def ofTokenChange (commit : Commit) (file : String) (change : TokenChange) : ChangeRecord :=
  { kind := change.kind
    tokenName := change.tokenName
    category := TokenFile.category file
    filePath := file
    description := commit.message ++ " (by " ++ commit.author ++ ")"
    commit := commit.shortHash
    oldValue := change.oldValue
    newValue := change.newValue }

/-- The record of a new token file. -/
def ofNewFile (commit : Commit) (file : String) : ChangeRecord :=
  { kind := .added
    tokenName := PathText.stem file
    category := TokenFile.category file
    filePath := file
    description := "New token file added (by " ++ commit.author ++ ")"
    commit := commit.shortHash
    oldValue := none
    newValue := some "New token file" }

/-- The records of a change of a file. -/
def ofFileChange (commit : Commit) (change : FileChange) : List ChangeRecord :=
  match change.tokenChanges.getD [] with
  | [] => if change.kind = .added then [ofNewFile commit change.file] else []
  | changes => changes.map (ofTokenChange commit change.file)

/-- The records of commits, in their order. -/
def ofCommits (commits : List Commit) : List ChangeRecord :=
  commits.flatMap fun c => c.changes.flatMap (ofFileChange c)

/-- The fields of a record as an object. -/
def toValue (r : ChangeRecord) : Value :=
  .object
    [ ("type", .text r.kind.word), ("token_name", .text r.tokenName),
      ("category", .text r.category), ("file_path", .text r.filePath),
      ("description", .text r.description), ("commit", .text r.commit),
      ("old_value", .ofText? r.oldValue), ("new_value", .ofText? r.newValue),
      ("severity", .text r.severity) ]

end ChangeRecord

end DesignTokens
