import DesignTokens.Failure
import DesignTokens.Files.PathText

/-!
# Trees of files

A file system without links, as the list of its files and directories by location. A path is
resolved segment by segment from a directory: every segment but the last must be that of a
directory, and `..` leads to the directory above. Names and paths have a limited length.
-/

namespace DesignTokens

/-- The names that lead from the root to a file or a directory. -/
abbrev Location := List String

/-- The greatest number of bytes in a name. -/
def nameLimit : Nat := 255

/-- The greatest number of bytes in a path. -/
def pathLimit : Nat := 4095

/-- What is at a location. -/
inductive Node
  | file (content : List UInt8)
  | directory
  deriving DecidableEq, Repr

/-- The files and directories below the root, each location once. -/
structure FileTree where
  nodes : List (Location × Node)
  deriving DecidableEq, Repr, Inhabited

namespace FileTree

/-- What is at a location; the root is a directory. -/
def node? (t : FileTree) (at_ : Location) : Option Node :=
  if at_ = [] then some .directory else t.nodes.lookup at_

/-- Whether a directory is at a location. -/
def hasDirectory (t : FileTree) (at_ : Location) : Bool :=
  t.node? at_ == some .directory

/-- Whether a file is at a location. -/
def hasFile (t : FileTree) (at_ : Location) : Bool :=
  match t.node? at_ with
  | some (.file _) => true
  | _ => false

/-- The names in a directory. -/
def children (t : FileTree) (at_ : Location) : List String :=
  t.nodes.filterMap fun n => if n.1.dropLast = at_ then n.1.getLast? else none

/-- The ways from a directory to itself and to each directory below it. -/
def directoriesBelow (t : FileTree) (at_ : Location) : List (List String) :=
  [] :: t.nodes.filterMap fun n =>
    if n.2 = .directory ∧ at_.isPrefixOf n.1 ∧ at_ ≠ n.1 then some (n.1.drop at_.length) else none

/-- Puts a file or a directory at a location. -/
def put (t : FileTree) (at_ : Location) (node : Node) : FileTree :=
  if t.nodes.any fun n => n.1 == at_ then
    ⟨t.nodes.map fun n => if n.1 = at_ then (at_, node) else n⟩
  else ⟨t.nodes ++ [(at_, node)]⟩

/-- Makes a location and everything above it directories, where nothing is yet. -/
def putDirectories (t : FileTree) (at_ : Location) : FileTree :=
  (List.range at_.length).foldl
    (fun t i =>
      let above := at_.take (i + 1)
      if (t.node? above).isSome then t else t.put above .directory)
    t

/-- Puts a file at a location and directories above it. -/
def putFile (t : FileTree) (at_ : Location) (content : List UInt8) : FileTree :=
  (t.putDirectories at_.dropLast).put at_ (.file content)

/-- Follows segments from a location. -/
def walk (t : FileTree) : Location → List String → Except FileFault Location
  | at_, [] => .ok at_
  | at_, segment :: rest =>
    if !t.hasDirectory at_ then .error .notDirectory
    else if segment = "" || segment = "." then walk t at_ rest
    else if segment = ".." then walk t at_.dropLast rest
    else if nameLimit < segment.utf8ByteSize then .error .nameTooLong
    else
      match t.node? (at_ ++ [segment]) with
      | none => .error .missing
      | some _ => walk t (at_ ++ [segment]) rest

/-- The location that a path seen from a directory leads to. -/
def locate (t : FileTree) (directory : Location) (path : String) : Except FileFault Location :=
  if path = "" then .error .missing
  else if pathLimit < path.utf8ByteSize then .error .nameTooLong
  else t.walk (if PathText.isAbsolute path then [] else directory) (PathText.segments path)

/-- Whether a path leads to something. -/
def pathExists (t : FileTree) (directory : Location) (path : String) : Bool :=
  match t.locate directory path with
  | .ok _ => true
  | .error _ => false

/-- Whether a path leads to a directory. -/
def isDirectory (t : FileTree) (directory : Location) (path : String) : Bool :=
  match t.locate directory path with
  | .ok at_ => t.hasDirectory at_
  | .error _ => false

/-- The content of the file that a path leads to. -/
def read (t : FileTree) (directory : Location) (path : String) : Except FileError (List UInt8) :=
  match t.locate directory path with
  | .error fault => .error ⟨fault, path⟩
  | .ok at_ =>
    match t.node? at_ with
    | some (.file content) => .ok content
    | some .directory => .error ⟨.isDirectory, path⟩
    | none => .error ⟨.missing, path⟩

/-- The place for the last segment of a path: the directory it is in, if the rest of the path leads
to one, and the segment. -/
def entry (t : FileTree) (directory : Location) (path : String) :
    Except FileFault (Location × String) := do
  if path = "" then .error .missing
  else if pathLimit < path.utf8ByteSize then .error .nameTooLong
  else
    let segments := PathText.segments path
    let start := if PathText.isAbsolute path then [] else directory
    let at_ ← t.walk start segments.dropLast
    let name := segments.getLast?.getD ""
    if !t.hasDirectory at_ then .error .notDirectory
    else if nameLimit < name.utf8ByteSize then .error .nameTooLong
    else .ok (at_, name)

/-- Whether a segment names no entry of its own. -/
def isNavigation (segment : String) : Bool :=
  segment = "" || segment = "." || segment = ".."

/-- Makes a directory; slashes at the end of its path do not count. -/
def makeDirectory (t : FileTree) (directory : Location) (path : String) :
    Except FileError FileTree :=
  let trimmed := PathText.dropTrailingSlashes path
  let path' := if trimmed = "" then path else trimmed
  match t.entry directory path' with
  | .error fault => .error ⟨fault, path⟩
  | .ok (at_, name) =>
    if isNavigation name || (t.node? (at_ ++ [name])).isSome then .error ⟨.alreadyThere, path⟩
    else .ok (t.put (at_ ++ [name]) .directory)

/-- Writes a file, new or in place of another. -/
def write (t : FileTree) (directory : Location) (path : String) (content : List UInt8) :
    Except FileError FileTree :=
  match t.entry directory path with
  | .error fault => .error ⟨fault, path⟩
  | .ok (at_, name) =>
    if isNavigation name || t.hasDirectory (at_ ++ [name]) then .error ⟨.isDirectory, path⟩
    else .ok (t.put (at_ ++ [name]) (.file content))

end FileTree

end DesignTokens
