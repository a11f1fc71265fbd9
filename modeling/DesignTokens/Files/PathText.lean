import DesignTokens.Text.Lines

/-!
# Paths as text

What can be read off the text of a path with `/` between its segments, without looking at any
file: its last segment, extension and stem, its normal form, and one path relative to another.
-/

namespace DesignTokens.PathText

open Text

/-- The segments between the slashes; empty ones stand for leading, trailing and double slashes. -/
def segments (path : String) : List String :=
  fieldsOf '/' path

/-- Segments with slashes between them. -/
def join (parts : List String) : String :=
  String.intercalate "/" parts

/-- Whether a path starts at the root. -/
def isAbsolute (path : String) : Bool :=
  path.toList.head? = some '/'

/-- A path without the slashes at its end. -/
def dropTrailingSlashes (path : String) : String :=
  String.ofList ((path.toList.reverse.dropWhile (· = '/')).reverse)

/-- The text after the last slash. -/
def baseName (path : String) : String :=
  (segments path).getLast?.getD ""

/-- The text before the last slash, without the slashes at its end unless it has nothing else. -/
def parent (path : String) : String :=
  let chars := path.toList.reverse.dropWhile (· ≠ '/')
  match chars.dropWhile (· = '/') with
  | [] => String.ofList chars.reverse
  | kept => String.ofList kept.reverse

/-- The last point of the last segment and what follows it, if something other than points stands
before it in that segment. -/
def extension (path : String) : String :=
  let name := (baseName path).toList.reverse
  let suffix := name.takeWhile (· ≠ '.')
  match name.drop suffix.length with
  | [] => ""
  | _ :: before =>
    if before.any (· ≠ '.') then String.ofList ('.' :: suffix.reverse) else ""

/-- Segments without the empty ones and those for the same directory. -/
def plainSegments (path : String) : List String :=
  (segments path).filter fun s => s ≠ "" && s ≠ "."

/-- The last segment that names something, without its extension. An extension has at least one
character after its point, and the point is not the first character. -/
def stem (path : String) : String :=
  let name := (plainSegments path).getLast?.getD ""
  let reversed := name.toList.reverse
  let suffix := reversed.takeWhile (· ≠ '.')
  match reversed.drop suffix.length with
  | [] => name
  | _ :: before =>
    if before.isEmpty || suffix.isEmpty then name else String.ofList before.reverse

/-- The slashes at the beginning of a path as its root: none, one, or exactly two, where more than
two count as one. -/
def root (path : String) : String :=
  match path.toList with
  | '/' :: '/' :: '/' :: _ => "/"
  | '/' :: '/' :: _ => "//"
  | '/' :: _ => "/"
  | _ => ""

/-- Takes one segment into the reversed segments before it: `..` removes the segment before it,
and nothing above the root. -/
def step (rooted : Bool) (done : List String) (segment : String) : List String :=
  if segment = "" || segment = "." then done
  else if segment = ".." then
    match done with
    | [] => if rooted then [] else [".."]
    | last :: rest => if last = ".." then ".." :: last :: rest else rest
  else segment :: done

/-- The normal form of a path: no empty segments, none for the same directory, and `..` only at
the beginning of a relative path. -/
def normalize (path : String) : String :=
  let r := root path
  let parts := ((segments path).foldl (step (r ≠ "")) []).reverse
  if r = "" && parts.isEmpty then "." else r ++ join parts

/-- A path relative to a directory, unless it is absolute itself. -/
def append (directory path : String) : String :=
  if isAbsolute path then path
  else if directory = "" || directory.toList.getLast? = some '/' then directory ++ path
  else directory ++ "/" ++ path

/-- The normal form of a path seen from the working directory. -/
def absolute (workingDirectory path : String) : String :=
  normalize (if isAbsolute path then path else append workingDirectory path)

/-- The path without superfluous slashes and segments for the same directory, `..` kept. -/
def tidy (path : String) : String :=
  let r := root path
  let parts := plainSegments path
  if r = "" && parts.isEmpty then "." else r ++ join parts

/-- The segments left when the common beginning of two lists is removed. -/
def afterCommon : List String → List String → List String × List String
  | a :: as, b :: bs => if a = b then afterCommon as bs else (a :: as, b :: bs)
  | as, bs => (as, bs)

/-- The way from a directory to a path, both absolute and in normal form. -/
def relative (path directory : String) : String :=
  let named (p : String) := (segments p).filter (· ≠ "")
  let (up, down) := afterCommon (named directory) (named path)
  match up.map (fun _ => "..") ++ down with
  | [] => "."
  | parts => join parts

end DesignTokens.PathText
