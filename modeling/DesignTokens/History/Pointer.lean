import DesignTokens.World

/-!
# The last processed commit

Where the hash of the last processed commit is kept: in memory, or as the text of a file. A file
that cannot be read or written gives a warning; white space around its text does not count, and an
empty text is no hash.
-/

namespace DesignTokens

open Terminal

variable [Nesting.Room]

/-- A place for the hash of the last processed commit. -/
inductive PointerStore
  /-- A store without a place of its own. -/
  | abstract
  | memory (held : Option String)
  | file (path : String)
  /-- A file that cannot be there, because its path has halves of pairs in it. -/
  | nowhere (halves : Spelling.Halves)
  deriving DecidableEq, Repr, Inhabited

namespace PointerStore

/-- The store in the file with a path. -/
def ofPath (path : String) : PointerStore := .file (PathText.tidy path)

/-- The store in the file with a path as a document spells it. Halves of pairs are told by their
index in the path without detours; the segment they are in keeps its place whatever it is. -/
def ofSpelling (path : Spelling) : PointerStore :=
  match path.halves? with
  | none => ofPath path.start
  | some h => .nowhere { h with position := (PathText.tidy (path.start ++ "x")).length - 1 }

/-- A trimmed text, unless nothing is left of it. -/
def hashIn (text : String) : Option String :=
  match Text.trim text.toList with
  | [] => none
  | hash => some (String.ofList hash)

/-- Whether a cause is a refused operation on a file. -/
def isFile : Failure → Bool
  | .file _ => true
  | _ => false

/-- The hash in a store. -/
def load : PointerStore → Run (Option String)
  | .abstract => throw .notImplemented
  | .memory held => pure held
  | .nowhere _ => pure none
  | .file path => do
    if !(← Run.findPath path) then pure none
    else
      Run.recover isFile (do return hashIn (← Run.readText path)) fun e => do
        Run.warn (paint red ("✖ Error loading last processed commit from " ++ path ++ ": " ++
          e.message))
        pure none

/-- The path with a root and the reversed segments given. -/
def pathOf (root : String) (reversed : List String) : String :=
  if root = "" && reversed.isEmpty then "." else root ++ PathText.join reversed.reverse

/-- Makes a directory; if something above it is missing, first that, up to a number of levels. -/
def makeAbove (root : String) : Nat → List String → Run Unit
  | 0, _ => throw (.tooDeep .ancestors)
  | _ + 1, [] => Run.makeDirectory (pathOf root []) true
  | levels + 1, name :: above =>
    Run.recover
      (fun e => match e with
        | .file e => e.fault == .missing
        | _ => false)
      (Run.makeDirectory (pathOf root (name :: above)) true)
      fun _ => do
        makeAbove root levels above
        Run.makeDirectory (pathOf root (name :: above)) true

/-- Writes a hash to the file with a path, in a directory that is made if it is missing. -/
def saveTo (path hash : String) : Run Unit := do
  makeAbove (PathText.root path) Nesting.Site.pointer.limit
    (PathText.plainSegments path).dropLast.reverse
  Run.writeText path hash

/-- The store after a hash has been put into it. -/
def save (hash : String) : PointerStore → Run PointerStore
  | .abstract => throw .notImplemented
  | .memory _ => pure (.memory (some hash))
  | .nowhere halves => throw (.noBytes halves)
  | .file path => do
    Run.recover isFile (saveTo path hash) fun e =>
      Run.warn (paint red ("✖ Error saving last processed commit to " ++ path ++ ": " ++ e.message))
    pure (.file path)

end PointerStore

end DesignTokens
