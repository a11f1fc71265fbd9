import DesignTokens.Files.Braces
import DesignTokens.Files.Tree

/-!
# Patterns for paths

A pattern for paths is matched segment by segment from a directory: `**` stands for any number of
directories, `..` is kept as it is, other segments match one name. A match consists of the
segments that lead to it and its location.
-/

namespace DesignTokens

variable [Nesting.Room]

namespace Glob

/-- A segment of a pattern. -/
inductive Segment
  /-- Any number of directories. -/
  | anyDirectories
  /-- A name that matches a wildcard pattern. -/
  | wild (pattern : List Char)
  /-- A fixed name, or the directory above. -/
  | fixed (name : String)
  /-- The end of a pattern for directories. -/
  | directoryOnly
  deriving DecidableEq, Repr

/-- Why a pattern cannot be matched. -/
inductive Fault
  | empty
  | outside (root : String)
  | starsInside
  /-- A path on the way to a match cannot be looked at. -/
  | refused (error : FileError)
  deriving DecidableEq, Repr

/-- The wording of a fault. -/
def Fault.message : Fault → String
  | .empty => "empty pattern"
  | .outside root => "pattern is outside the repository " ++ root
  | .starsInside => "Invalid pattern: '**' can only be an entire path component"
  | .refused error => error.message

/-- The meaning of a segment, or `none` if it has two stars beside other characters. -/
def segment? (s : String) : Option Segment :=
  if s = "**" then some .anyDirectories
  else if Text.hasPart ['*', '*'] s.toList then none
  else if Wildcard.isWild s.toList then some (.wild s.toList)
  else some (.fixed s)

/-- The segments of a relative pattern. One without any segment is refused in a way of its own,
with or without a slash. Segments are read in order, as far as there is room. -/
def segments (pattern : String) : Except Failure (Except Fault (List Segment)) :=
  let trailing := pattern.toList.getLast? = some '/'
  match PathText.plainSegments pattern with
  | [] =>
    if trailing then .error (.noMember "_TerminatingSelector" "select_from")
    else .error .noSegment
  | names =>
    match (names.take Nesting.Site.search.limit).mapM segment? with
    | none => .ok (.error .starsInside)
    | some parsed =>
      if Nesting.Site.search.limit < names.length then .error (.tooDeep .segments)
      else .ok (.ok (if trailing then parsed ++ [.directoryOnly] else parsed))

/-- The segments that lead from a directory to a match, and its location. -/
structure Hit where
  way : List String
  location : Location
  deriving DecidableEq, Repr

/-- The path below a root that segments lead to. -/
def fullPath (root : String) (way : List String) : String :=
  if way = [] then root else PathText.append root (PathText.join way)

/-- Where one segment leads from a directory. -/
def next (t : FileTree) : Segment → Hit → List Hit
  | .directoryOnly, h => [h]
  | .fixed name, h =>
    match t.walk h.location [name] with
    | .ok at_ => [⟨h.way ++ [name], at_⟩]
    | .error _ => []
  | .wild pattern, h =>
    ((t.children h.location).filter fun name => Wildcard.isMatch pattern name.toList).map
      fun name => ⟨h.way ++ [name], h.location ++ [name]⟩
  | .anyDirectories, h =>
    (t.directoriesBelow h.location).map fun way => ⟨h.way ++ way, h.location ++ way⟩

/-- Where one segment leads from a directory, if others follow: only to directories. -/
def nextFor (t : FileTree) (rest : List Segment) (s : Segment) (h : Hit) : List Hit :=
  (next t s h).filter fun n => rest.isEmpty || t.hasDirectory n.location

/-- The matches of segments from a directory. -/
def select (t : FileTree) : List Segment → Hit → List Hit
  | [], h => [h]
  | s :: rest, h => (nextFor t rest s h).flatMap (select t rest)

/-- The ways to all that is looked at while segments are matched from a directory, in order: the
directories whose names are listed, what fixed names may lead to, and the matches. -/
def looks (t : FileTree) : List Segment → Hit → List (List String)
  | [], h => [h.way]
  | s :: rest, h =>
    (match s with
      | .fixed name => [h.way ++ [name]]
      | .wild _ => [h.way]
      | _ => []) ++ (nextFor t rest s h).flatMap (looks t rest)

/-- Whether nothing can be looked at by a path, because it or its last name is too long. A path
with the character that no path can have is not too long, however long it is. -/
def isRefused (root : String) (way : List String) : Bool :=
  let path := fullPath root way
  !path.toList.any (·.toNat == 0) &&
    (pathLimit < path.utf8ByteSize || nameLimit < (way.getLast?.getD "").utf8ByteSize)

/-- Whether a segment hides what it names. -/
def isHidden (segment : String) : Bool :=
  segment.toList.head? = some '.' && segment ≠ "." && segment ≠ ".."

/-- A pattern relative to a root; one that starts at the root of the file system must lead into
it. -/
def relativePattern (root pattern : String) : Except Fault String :=
  if pattern = "" then .error .empty
  else if !PathText.isAbsolute pattern then .ok pattern
  else
    let top := PathText.plainSegments root
    let names := PathText.plainSegments pattern
    if PathText.root pattern = "/" ∧ top.isPrefixOf names then
      match names.drop top.length with
      | [] => .ok "."
      | rest => .ok (PathText.join rest)
    else .error (.outside root)

/-- The files below a root that a pattern without alternatives matches, by the segments that lead
to them. Hidden files are left out unless a segment of the pattern is hidden. -/
def files (t : FileTree) (root : String) (at_ : Location) (pattern : String) :
    Except Failure (Except Fault (List (List String))) :=
  match relativePattern root pattern with
  | .error fault => .ok (.error fault)
  | .ok relative => do
    match ← segments relative with
    | .error fault => .ok (.error fault)
    | .ok parsed =>
      match ([] :: looks t parsed ⟨[], at_⟩).find? (isRefused root) with
      | some way => .ok (.error (.refused ⟨.nameTooLong, fullPath root way⟩))
      | none =>
        let showHidden := (PathText.segments relative).any isHidden
        .ok (.ok
          (((select t parsed ⟨[], at_⟩).filter fun h =>
            t.hasFile h.location && (showHidden || !h.way.any isHidden)).map (·.way)))

end Glob

end DesignTokens
