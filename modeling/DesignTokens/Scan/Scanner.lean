import DesignTokens.Scan.Checkout
import DesignTokens.Scan.Result

/-!
# Scans of repositories

A scanner prepares a repository, discovers its files, searches each for tokens and structural
patterns, and sums up. A file that cannot be read is noted among the errors and the scan goes on;
a repository that cannot be prepared has a failed result and the next one is scanned.
-/

namespace DesignTokens

open Terminal

variable [Nesting.Room]

/-- How repositories are scanned. -/
structure Scanner where
  formats : List TokenFormat
  discovery : Discovery
  categorizer : Categorizer
  /-- The directory for copies of remote repositories. -/
  copies : Value
  contextLength : Int
  catalogSize : Int

/-- A discovered file: its path in the repository, and its text or why it has none. -/
structure SourceFile where
  path : String
  text : Except String String

namespace SourceFile

/-- The file as it is read: a refusal of the file system or a text that is not well encoded becomes
a complaint. -/
def read (w : World) (root path : String) : Except Failure SourceFile :=
  let inRepository :=
    PathText.relative (PathText.absolute w.workingDirectory path)
      (PathText.absolute w.workingDirectory root)
  let complaint (e : Failure) : SourceFile :=
    ⟨inRepository, .error ("Error scanning " ++ path ++ ": " ++ e.message)⟩
  match w.textOf path with
  | .ok text => .ok ⟨inRepository, .ok text⟩
  | .error (.file e) => .ok (complaint (.file e))
  | .error (.notUtf8 fault) => .ok (complaint (.notUtf8 fault))
  | .error e => .error e

/-- The complaint about a file, if there is one. -/
def complaint? (f : SourceFile) : Option String :=
  match f.text with
  | .ok _ => none
  | .error complaint => some complaint

/-- The text of a file, if there is one, with its path. -/
def readable? (f : SourceFile) : Option (String × String) :=
  match f.text with
  | .ok text => some (f.path, text)
  | .error _ => none

end SourceFile

namespace Scanner

/-- The scanner that settings describe; a set of formats that is given comes before the one in the
settings. -/
def ofSettings (settings : Settings) (preset : Option String) : Except Failure Scanner := do
  let definitions ← (← settings.customDefinitions).mapM Definition.ofMembers
  let formats ← Settings.formatsNamed (match preset.filter (· ≠ "") with
    | some name => .text name
    | none => settings.formatPreset)
  let include_ ← settings.includePatterns
  let exclude ← settings.excludePatterns
  let dictionary ← Dictionary.ofDefinitions definitions
  let contextLength ← settings.contextLength
  let catalogSize ← settings.catalogSize
  .ok
    { formats := formats
      discovery := ⟨include_, exclude, some (TokenFormat.extensionsOf formats)⟩
      categorizer := ⟨dictionary, CategoryRule.standard⟩
      copies := settings.repositoriesDirectory
      contextLength := contextLength
      catalogSize := catalogSize }

/-- The usages in files, in the order of the files. -/
def usagesIn (s : Scanner) (files : List (String × String)) : Except Failure (List Usage) := do
  let found ← files.mapM fun file =>
    Usage.inFile s.formats file.2 file.1 s.contextLength (some s.categorizer)
  .ok found.flatten

/-- The structural patterns in files, in the order of the files. -/
def patternsIn (files : List (String × String)) : List UiPattern :=
  files.flatMap fun file => UiPattern.detect file.2 file.1

/-- The figures of a scan. -/
def summarize (s : Scanner) (discovered scanned : Nat) (tokens : List Usage) :
    Except Failure ScanSummary := do
  let tiers ← Usage.tierTotals tokens
  .ok
    { totalFiles := discovered
      scannedFiles := scanned
      tokensFound := sumOf (tokens.map (·.totalCount))
      uniqueTokens := tokens.length
      mostUsedToken := (tokens.head?.map (·.tokenName)).getD ""
      coveragePercentage := DesignTokens.coverage tokens.length s.catalogSize
      tokensByTier := tiers }

/-- The result of a scan, given the discovered files and the complaints about patterns. -/
def resultOf (s : Scanner) (r : Repository) (w : World) (complaints : List String)
    (files : List SourceFile) : Except Failure ScanResult := do
  let readable := files.filterMap SourceFile.readable?
  let tokens := Usage.aggregate (← s.usagesIn readable)
  let summary ← s.summarize files.length readable.length tokens
  .ok
    { repository := r
      scanDate := w.now
      tokensFound := tokens
      totalUsage := summary.tokensFound
      coverage := summary.coveragePercentage
      patterns := UiPattern.aggregate (patternsIn readable)
      errors := complaints ++ files.filterMap SourceFile.complaint?
      summary := summary
      durationMs := w.scanMilliseconds }

/-- Scans a repository. -/
def scan (s : Scanner) (r : Repository) : Run ScanResult := do
  let directory ← Checkout.prepare s.copies r
  Run.requirePath directory
  let w ← get
  let root := w.realPath directory
  let (found, complaints) := (s.discovery.discover w root).run.run []
  let paths ← Run.ofExcept found
  Run.say (paint grey ("📄 Found " ++ toString paths.length ++ " files to scan"))
  let files ← Run.ofExcept (paths.mapM (SourceFile.read w root))
  let result ← Run.ofExcept (s.resultOf r w complaints files)
  Run.say (paint grey ("⏱️  Scan completed in " ++ toString w.scanMilliseconds ++ "ms"))
  pure result

/-- Whether a cause leaves a repository without a directory to scan. -/
def isUnavailable : Failure → Bool
  | .root _ | .unprepared _ _ => true
  | _ => false

/-- Scans a repository; one without a directory to scan has a failed result. -/
def scanOrFail (s : Scanner) (r : Repository) : Run ScanResult := do
  let name := r.name.displayString
  Run.say (paint grey ("📂 Scanning repository: " ++ name))
  Run.recover isUnavailable
    (do
      let result ← s.scan r
      Run.say (paint green ("✅ Completed scan for " ++ name ++ ": " ++
        toString result.tokensFound.length ++ " tokens found"))
      pure result)
    fun e => do
      Run.warn (paint red ("❌ Failed to scan " ++ name ++ ": " ++ e.message))
      return .failed r (← get).now e.message

/-- Scans repositories in order; each has a result. -/
def scanAll (s : Scanner) (repositories : List Repository) : Run (List ScanResult) := do
  Run.say (paint bold "🔍 Starting token usage scan...")
  repositories.mapM s.scanOrFail

end Scanner

end DesignTokens
