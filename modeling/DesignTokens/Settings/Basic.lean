import DesignTokens.Diff.Changes
import DesignTokens.Files.Discovery
import DesignTokens.History.Detector
import DesignTokens.Token.Usage

/-!
# Settings

What a configuration says about a run, setting by setting. A setting that is absent has its
default; a setting that is present is used as it stands, so a list, a number or a table of another
kind than expected is refused by the setting that reads it.
-/

namespace DesignTokens

/-- A whole number given by a value: a text that spells one, a number without its fraction, one or
zero for a truth value. -/
def Value.wholeNumber : Value → Except Failure Int
  | text s =>
    match Text.Integer.parse s.shown.toList with
    | .ok n => .ok n
    | .error fault => .error (.value (.ofInteger s fault))
  | int n => .ok n
  | bool b => .ok (if b then 1 else 0)
  | real .nan => .error (.value .notANumber)
  | real x =>
    match x.truncate? with
    | some n => .ok n
    | none => .error (.overflow "cannot convert float infinity to integer")
  | _ => .error .wrongKind

/-- A configuration: the members of its document. -/
structure Settings where
  members : Members
  deriving Repr, Inhabited, BEq

namespace Settings

/-- The setting with a key, or its default. -/
def setting (s : Settings) (key : String) (default : Value) : Value :=
  s.members.getD key default

/-- The item of a list of objects at an index, if it is one. -/
def entry (key : String) (index : Nat) : Value → Except Failure Members
  | .object members => .ok members
  | item => .error (.settings (.notEntry key index item))

/-- A setting that must be a list of objects; by default it is empty. -/
def entries (s : Settings) (key : String) : Except Failure (List Members) :=
  match s.setting key (.list []) with
  | .list items => items.zipIdx.mapM fun item => entry key item.2 item.1
  | v => .error (.settings (.notList key v.kindName))

/-- The entries that declare repositories. -/
def repositories (s : Settings) : Except Failure (List Members) :=
  s.entries "repositories"

/-- The team of an entry, in lower case, if it has no halves of pairs. -/
def teamOf (entry : Members) : Option (List Char) :=
  (entry.getD "team" (.text "")).spelled.plain?.map fun team => Text.lower team.toList

/-- The entries that declare repositories of a team, in upper or lower case. -/
def teamRepositories (s : Settings) (team : String) : Except Failure (List Members) := do
  let entries ← s.repositories
  .ok (entries.filter fun e => teamOf e == some (Text.lower team.toList))

/-- The name of the set of token formats. -/
def formatPreset (s : Settings) : Value :=
  s.setting "token_format_preset" (.text "default")

/-- The set of token formats with a name, which must be a text. -/
def formatsNamed : Value → Except Failure (List TokenFormat)
  | .text name =>
    match TokenFormat.preset? name.shown with
    | some formats => .ok formats
    | none => .error (.settings (.unknownPreset name.shown))
  | v => .error (.noMember v.kindName "lower")

/-- The patterns of files that are read. -/
def includePatterns (s : Settings) : Except Failure (List Value) :=
  (s.setting "include_patterns" (.list Discovery.defaultInclude)).items

/-- The patterns of files that are left out. -/
def excludePatterns (s : Settings) : Except Failure (List Value) :=
  (s.setting "exclude_patterns" (.list Discovery.defaultExclude)).items

/-- The directory for reports. -/
def outputPath (s : Settings) : Value :=
  s.setting "output_path" (.text "./scan-reports")

/-- The directory for copies of remote repositories. -/
def repositoriesDirectory (s : Settings) : Value :=
  s.setting "repos_dir" (.text "./temp/repos")

/-- How many characters of context are kept on either side of a match. -/
def contextLength (s : Settings) : Except Failure Int :=
  (s.setting "context_length" (.int Occurrence.defaultContext)).wholeNumber

/-- The number of tokens in the design system. -/
def catalogSize (s : Settings) : Except Failure Int :=
  (s.setting "token_catalog_size" (.int defaultCatalogSize)).wholeNumber

/-- The path of the design system; one given by the environment comes first. -/
def designSystemPath (s : Settings) : Option String → Value
  | some path => if path = "" then s.setting "design_system_path" .null else .text path
  | none => s.setting "design_system_path" .null

/-- The file that holds the last processed commit. -/
def pointerFile (s : Settings) : Value :=
  s.setting "pointer_file" (.text "./temp/last-scan-commit.txt")

/-- The hours to look back while no commit has been processed. -/
def lookbackHours (s : Settings) : Except Failure Int :=
  (s.setting "change_lookback_hours" (.int Detector.defaultLookback)).wholeNumber

/-- How far a replacement may be from the definition it replaces. -/
def diffLookahead (s : Settings) : Except Failure Int :=
  (s.setting "diff_lookahead" (.int TokenChange.defaultLookahead)).wholeNumber

/-- An entry that defines a token, if it names the token. -/
def named (index : Nat) (entry : Members) : Except Failure Members :=
  if (entry.getD "name" .null).isGiven then .ok entry
  else .error (.settings (.unnamed index (.object entry)))

/-- The entries that define tokens in addition to those of the standard dictionary. -/
def customDefinitions (s : Settings) : Except Failure (List Members) := do
  let entries ← s.entries "custom_token_definitions"
  entries.zipIdx.mapM fun e => named e.2 e.1

end Settings

end DesignTokens
