import DesignTokens.CommandLine.Program
import Std.Time

/-!
# The program on a machine

Reads the files that a call may need, makes the call, and then prints what it printed and writes
the files that it wrote. No version control system is asked: every command to one fails, as it
does on a machine without one.
-/

namespace DesignTokens.CommandLine

/-- How many directories deep files are looked for. -/
def depthLimit : Nat := 2048

/-- The answers of a version control system that is not there. -/
def absentGit : GitService :=
  let absent : GitFailure := ⟨.general, "git is not available"⟩
  ⟨fun _ _ => .error absent, fun _ => .error absent, fun _ _ => .error absent⟩

/-- Reads an entry of a directory and everything below it; links and files that cannot be read are
left out. -/
def readEntry : Nat → Location → List (Location × Node) → IO.FS.DirEntry →
    IO (List (Location × Node))
  | 0, _, nodes, _ => pure nodes
  | depth + 1, above, nodes, entry => do
    let here := above ++ [entry.fileName]
    try
      match (← entry.path.symlinkMetadata).type with
      | .dir => (← entry.path.readDir).foldlM (readEntry depth here) ((here, .directory) :: nodes)
      | .file => return (here, .file (← IO.FS.readBinFile entry.path).toList) :: nodes
      | _ => pure nodes
    catch _ => pure nodes

/-- Adds what a path leads to, unless it is known already. -/
def readPlace (w : World) (place : String) : IO World := do
  let at_ := PathText.plainSegments (w.realPath (w.expandHome place))
  if place = "" || (w.files.node? at_).isSome && at_ ≠ [] then pure w
  else
    let path := (← IO.currentDir) / ("/" ++ PathText.join at_)
    let entries ←
      if ← path.isDir then
        try
          (← path.readDir).foldlM (readEntry depthLimit at_) [(at_, .directory)]
        catch _ => pure []
      else if ← path.pathExists then
        try
          pure [(at_, .file (← IO.FS.readBinFile path).toList)]
        catch _ => pure []
      else pure []
    let above := w.files.putDirectories at_.dropLast
    pure { w with files := ⟨above.nodes ++ entries⟩ }

/-- The paths that a value names, if it is a text. -/
def pathsIn (v : Value) : List String := v.text?.toList

/-- The paths that settings name. -/
def placesIn (s : Settings) (w : World) : List String :=
  let repositories := match s.repositories with
    | .ok entries => entries.flatMap fun e =>
        ["location", "url", "local_path", "localPath"].flatMap fun key => pathsIn (e.getD key .null)
    | .error _ => []
  repositories ++
    [s.repositoriesDirectory, s.outputPath, s.pointerFile,
      s.designSystemPath w.designSystemVariable].flatMap pathsIn

/-- The home directories by user in a table that has a line for each user, whose first field is the
name and whose sixth field is the directory. -/
def homesIn (table : String) : List (String × String) :=
  (Text.splitLines table.toList).filterMap fun line =>
    match Text.splitOn ':' line with
    | name :: _ :: _ :: _ :: _ :: home :: _ => some (String.ofList name, String.ofList home)
    | _ => none

/-- The home directories of the users of this machine, as far as they are known. -/
def readHomes : IO (List (String × String)) := do
  try
    return homesIn (← IO.FS.readFile ((← IO.currentDir) / "/etc/passwd"))
  catch _ => pure []

/-- The point in time that the clock shows. -/
def currentTime : IO Timestamp := do
  let now ← Std.Time.PlainDateTime.now
  pure
    { year := now.date.year.toInt.toNat
      month := now.date.month.val.toNat
      day := now.date.day.val.toNat
      hour := now.time.hour.val.toNat
      minute := now.time.minute.val.toNat
      second := now.time.second.val.toNat
      microsecond := now.time.nanosecond.val.toNat / 1000 }

/-- The world as it is, with the files that arguments and settings name. -/
def readWorld (arguments : List String) : IO World := do
  let directory := (← IO.currentDir).toString
  let w : World :=
    { files := ⟨[]⟩
      workingDirectory := directory
      home := (← IO.getEnv "HOME").getD ""
      homes := ← readHomes
      configVariable := ← IO.getEnv "TOKEN_SCANNER_CONFIG"
      designSystemVariable := ← IO.getEnv "DESIGN_SYSTEM_PATH"
      now := ← currentTime
      scanMilliseconds := 0
      git := absentGit
      verbose := true
      calls := []
      output := []
      warnings := [] }
  let w ← (directory :: (w.configVariable.toList ++ arguments)).foldlM readPlace w
  let config := match Options.ofArguments arguments with
    | .ok options => options.config
    | .error _ => none
  match ((Settings.load config).run.run w).1 with
  | .ok settings => (placesIn settings w).foldlM readPlace w
  | .error _ => pure w

/-- Writes the files and directories that are new or different. -/
def writeChanges (before after : FileTree) : IO Unit := do
  let root ← IO.currentDir
  for node in after.nodes do
    if before.node? node.1 ≠ some node.2 then
      let path := root / ("/" ++ PathText.join node.1)
      match node.2 with
      | .directory => IO.FS.createDirAll path
      | .file content => IO.FS.writeBinFile path ⟨content.toArray⟩

end DesignTokens.CommandLine

/-- Makes a call with the arguments of the command line. -/
def main (arguments : List String) : IO UInt32 := do
  let before ← DesignTokens.CommandLine.readWorld arguments
  let (answer, after) := (DesignTokens.CommandLine.call arguments).run.run before
  DesignTokens.CommandLine.writeChanges before.files after.files
  IO.print after.outputText
  IO.eprint after.warningText
  match answer with
  | .ok code => pure (UInt32.ofNat code)
  | .error e =>
    IO.eprintln e.message
    pure 1
