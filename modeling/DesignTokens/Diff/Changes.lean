import DesignTokens.Diff.TokenLine
import DesignTokens.Failure
import DesignTokens.Text.Lines

/-!
# Token changes in a diff

A unified diff is read line by line. A removed definition is paired with the first added
definition of the same name among the next lines and reported as one modification; definitions
without a partner are deletions and additions. Changes come in the order of their own lines, and
line numbers count on from the start of the old file in the last header of a hunk.
-/

namespace DesignTokens

/-- What happened to a token. -/
inductive ChangeWord
  | updated
  | added
  | removed
  deriving DecidableEq, Repr

/-- The word for what happened. -/
def ChangeWord.word : ChangeWord → String
  | updated => "updated"
  | added => "added"
  | removed => "removed"

/-- A token added, removed or modified. -/
structure TokenChange where
  tokenName : String
  lineNumber : Int
  /-- Absent for an addition. -/
  oldValue : Option String
  /-- Absent for a deletion. -/
  newValue : Option String
  deriving DecidableEq, Repr

namespace TokenChange

/-- Both values make a modification, a new value alone an addition. -/
def kind (c : TokenChange) : ChangeWord :=
  match c.oldValue, c.newValue with
  | some _, some _ => .updated
  | none, some _ => .added
  | _, none => .removed

/-- The fields of a change as an object. -/
def toValue (c : TokenChange) : Value :=
  .object
    [ ("token_name", .text c.tokenName), ("line_number", .int c.lineNumber),
      ("old_value", .ofText? c.oldValue), ("new_value", .ofText? c.newValue) ]

end TokenChange

/-- A line of a diff. -/
inductive DiffLine
  /-- The header of a hunk with the start of the hunk in the old file. -/
  | hunk (start : Nat)
  /-- A removed line and the definition in it. -/
  | removed (token : Option TokenLine)
  /-- An added line and the definition in it. -/
  | added (token : Option TokenLine)
  /-- Any other line; those that begin with a dash do not advance the line number. -/
  | other (advances : Bool)
  deriving DecidableEq, Repr

namespace DiffLine

open Pattern

/-- The header of a hunk: its first number is the group. -/
def hunkHeader : Pattern :=
  seq (lit "@@ -") (group 1 (many1 Text.isDigit))

/-- A dash at the beginning marks a removed line, three dashes the name of a file. -/
def isRemoved (line : List Char) : Bool :=
  (lit "-").begins line && !(lit "---").begins line

/-- A plus at the beginning marks an added line, three the name of a file. -/
def isAdded (line : List Char) : Bool :=
  (lit "+").begins line && !(lit "+++").begins line

/-- The meaning of a line. A hunk number with too many digits is refused. -/
def read (line : List Char) : Except Failure DiffLine :=
  match hunkHeader.matchAt line with
  | some m =>
    match Text.Integer.parse (m.capture 1) with
    | .ok n => .ok (.hunk n.toNat)
    | .error fault => .error (.value (.ofInteger (String.ofList (m.capture 1)) fault))
  | none =>
    if isRemoved line then .ok (.removed (TokenLine.find line.tail))
    else if isAdded line then .ok (.added (TokenLine.find line.tail))
    else .ok (.other !((lit "-").begins line))

end DiffLine

namespace TokenChange

/-- How many lines after a removed definition are searched for its replacement by default. -/
def defaultLookahead : Int := 4

/-- The value of the first added definition with a name among the next `reach` lines, leaving out
the lines marked as taken, and the marks with that line marked. -/
def partner? (name : String) : Nat → List DiffLine → List Bool → Option (String × List Bool)
  | 0, _, _ => none
  | _ + 1, [], _ => none
  | reach + 1, line :: lines, taken =>
    let further :=
      (partner? name reach lines taken.tail).map fun p => (p.1, taken.headD false :: p.2)
    match line with
    | .added (some token) =>
      if !taken.headD false && token.name = name then some (token.value, true :: taken.tail)
      else further
    | _ => further

/-- The changes in lines of a diff; `taken` marks the added lines that already belong to a
modification. -/
def ofLines (reach : Nat) : Nat → List DiffLine → List Bool → List TokenChange
  | _, [], _ => []
  | _, .hunk start :: lines, taken => ofLines reach start lines taken.tail
  | n, .removed none :: lines, taken => ofLines reach n lines taken.tail
  | n, .removed (some token) :: lines, taken =>
    match partner? token.name reach lines taken.tail with
    | some (value, taken) =>
      ⟨token.name, n, some token.value, some value⟩ :: ofLines reach n lines taken
    | none => ⟨token.name, n, some token.value, none⟩ :: ofLines reach n lines taken.tail
  | n, .added none :: lines, taken => ofLines reach (n + 1) lines taken.tail
  | n, .added (some token) :: lines, taken =>
    if taken.headD false then ofLines reach (n + 1) lines taken.tail
    else ⟨token.name, n, none, some token.value⟩ :: ofLines reach (n + 1) lines taken.tail
  | n, .other advances :: lines, taken =>
    ofLines reach (if advances then n + 1 else n) lines taken.tail

/-- The changes in a diff; a lookahead below one pairs nothing. -/
def ofDiff (diff : String) (lookahead : Int) : Except Failure (List TokenChange) := do
  if diff.isEmpty then .ok []
  else
    let lines ← (Text.splitOn '\n' diff.toList).mapM DiffLine.read
    .ok (ofLines lookahead.toNat 0 lines [])

end TokenChange

end DesignTokens
