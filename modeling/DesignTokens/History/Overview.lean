import DesignTokens.History.Commit
import DesignTokens.Terminal.Color

/-!
# Overview of commits

Commits and their token changes as text for the terminal, with colors, or with emphasis marks in
place of them.
-/

namespace DesignTokens

open Terminal

namespace ChangeRecord

/-- What a record says about values: both for a modification, else the one there is. -/
def detail (r : ChangeRecord) : String :=
  match r.kind with
  | .updated => r.oldValue.getD "" ++ " → " ++ r.newValue.getD ""
  | _ => if r.newValue.getD "" = "" then r.oldValue.getD "" else r.newValue.getD ""

/-- A word with spaces after it up to a width of eight. -/
def padded (word : String) : String :=
  word ++ String.ofList (List.replicate (8 - word.length) ' ')

/-- The line on a record; one that deserves a warning stands out. -/
def overviewLine (r : ChangeRecord) : String :=
  let color := if r.severity = "warning" then yellow else grey
  "  " ++ paint color (padded r.kind.word) ++ " " ++ r.tokenName ++ " " ++ r.detail ++ " [" ++
    r.category ++ "]"

end ChangeRecord

namespace Commit

/-- The lines on a commit: one for itself and one for each file. -/
def overviewLines (c : Commit) : List String :=
  ("\n" ++ paint grey c.shortHash ++ " " ++ c.message ++
      " (" ++ c.author ++ ", " ++ c.date ++ ")") ::
    c.changes.map fun change => "  📄 " ++ change.kind.word ++ ": " ++ change.file

/-- The lines on the token changes of commits. -/
def recordLines (records : List ChangeRecord) : List String :=
  if records.isEmpty then []
  else ("\n" ++ paint bold "Token updates:") :: records.map ChangeRecord.overviewLine

/-- The overview of commits for the terminal. -/
def overview (commits : List Commit) : String :=
  if commits.isEmpty then "\n" ++ paint green "✅ No token changes detected."
  else
    String.intercalate "\n"
      (("\n" ++ paint bold ("🔄 Token Changes: " ++ toString commits.length ++ " commits")) ::
        (commits.flatMap overviewLines ++ recordLines (ChangeRecord.ofCommits commits)))

/-- The overview of commits, with emphasis in place of colors if `marked` says so. -/
def overviewAs (marked : Bool) (commits : List Commit) : String :=
  if marked then emphasize (overview commits) else overview commits

/-- Commits and their token changes as an object. -/
def listing (commits : List Commit) : Value :=
  .object
    [ ("commits", .list (commits.map toValue)),
      ("token_changes", .list ((ChangeRecord.ofCommits commits).map ChangeRecord.toValue)) ]

end Commit

end DesignTokens
