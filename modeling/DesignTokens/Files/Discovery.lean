import DesignTokens.Files.Glob
import DesignTokens.Token.Format
import DesignTokens.World

/-!
# Discovery of files

Which files of a repository are read: those that an include pattern matches, that no exclude
pattern matches, and whose extension some format searches. Each path is listed once, in the order
of its characters.
-/

namespace DesignTokens

variable [Nesting.Room]

/-- The rules that select files. Patterns come from the configuration and are used as they
stand. -/
structure Discovery where
  includePatterns : List Value
  excludePatterns : List Value
  /-- The extensions of the files that are wanted, or `none` for all. -/
  extensions : Option (List String)

namespace Discovery

/-- The include patterns used where the configuration has none. -/
def defaultInclude : List Value :=
  [ .text "**/*.\x7bcss,scss,sass,less\x7d", .text "**/*.\x7bjs,jsx,ts,tsx\x7d",
    .text "**/*.\x7bhtml,vue,svelte\x7d", .text "**/*.json" ]

/-- The exclude patterns used where the configuration has none. -/
def defaultExclude : List Value :=
  [ .text "**/node_modules/**", .text "**/dist/**", .text "**/build/**", .text "**/.git/**",
    .text "**/coverage/**", .text "**/*.test.*", .text "**/*.spec.*",
    .text "**/storybook-static/**" ]

/-- Whether some format searches files with this path. -/
def isWanted (d : Discovery) (path : String) : Bool :=
  match d.extensions with
  | none => true
  | some extensions => extensions.contains (Text.lowerString (PathText.extension path))

/-- The complaint about a pattern that cannot be matched. -/
def complaint (pattern : Spelling) (fault : Glob.Fault) : String :=
  "Invalid include pattern " ++ String.ofList (Text.quoteSpelling pattern) ++ ": " ++ fault.message

/-- A search that notes complaints on its way and may stop with a cause; the complaints noted
before that stay. -/
abbrev Search := ExceptT Failure (StateM (List String))

/-- What one pattern without alternatives matches, for the pattern it comes from. A pattern that
cannot be matched gives a complaint and no files. -/
def filesOf (t : FileTree) (root : String) (at_ : Location) (pattern : Spelling)
    (expanded : List Char) : Search (List (List String)) := do
  match Glob.files t root at_ (String.ofList expanded) with
  | .error e => throw e
  | .ok (.ok ways) => pure ways
  | .ok (.error fault) =>
    modify fun complaints => complaints ++ [complaint pattern fault]
    pure []

/-- What one include pattern matches; it must be a text. -/
def filesOfPattern (t : FileTree) (root : String) (at_ : Location) :
    Value → Search (List (List String))
  | .text p => do
    match Braces.expansions (Wildcard.characters p) with
    | .error e => throw e
    | .ok patterns =>
      let found ← patterns.mapM (filesOf t root at_ p)
      pure found.flatten
  | _ => throw .wrongKind

/-- What the include patterns match below a root, in the order of the patterns. -/
def findings (d : Discovery) (t : FileTree) (root : String) (at_ : Location) :
    Search (List (List String)) := do
  let found ← d.includePatterns.mapM (filesOfPattern t root at_)
  pure found.flatten

/-- Whether a file is kept: no exclude pattern matches its path below the root, and some format
searches it. -/
def keeps (d : Discovery) (root : String) (way : List String) : Except Failure Bool := do
  if ← Wildcard.matchesAny (PathText.join way).toList d.excludePatterns then .ok false
  else .ok (d.isWanted (Glob.fullPath root way))

/-- The answer or the failure of a part that notes no complaint. -/
def ofExcept {α : Type} : Except Failure α → Search α
  | .ok a => pure a
  | .error e => throw e

/-- The paths to read, sorted, among those that include patterns match. -/
def select (d : Discovery) (root : String) (ways : List (List String)) :
    Except Failure (List String) := do
  let kept ← ways.eraseDups.filterM (d.keeps root)
  .ok ((kept.map (Glob.fullPath root)).mergeSort fun a b => decide (a ≤ b))

/-- The path of a root with a home directory in place of a tilde. The user may be unknown. -/
def expandRoot (w : World) (root : String) : Except Failure String :=
  let tidied := PathText.tidy root
  let home := w.expandHome tidied
  if home.toList.head? = some '~' then .error .noHome else .ok home

/-- The root of a repository as a path without detours, and its location. -/
def openRoot (w : World) (root : String) : Except Failure (String × Location) := do
  let path ← expandRoot w root
  match w.files.locate w.directory path with
  | .error .nameTooLong => .error (.file ⟨.nameTooLong, path⟩)
  | .error _ => .error (.root (.absent root))
  | .ok at_ =>
    if w.files.hasDirectory at_ then .ok (w.realPath path, at_)
    else .error (.root (.notDirectory root))

/-- The files to read below a root. -/
def discover (d : Discovery) (w : World) (root : String) : Search (List String) := do
  let (path, at_) ← ofExcept (openRoot w root)
  let found ← d.findings w.files path at_
  ofExcept (d.select path found)

end Discovery

end DesignTokens
