/-!
# Help

What the command line prints about itself: the usage, which also comes before a refusal, and the
description of all arguments.
-/

namespace DesignTokens.CommandLine

/-- The name of the program. -/
def programName : String := "token-scanner"

/-- The usage, line by line. -/
def usage : List String :=
  [ "usage: token-scanner [-h] [--config CONFIG] [--team TEAM] [--preset PRESET]",
    "                     [--json] [--markdown] [--html-report] [--no-report]",
    "                     [--changes] [--recent HOURS] [--quiet]",
    "                     [directory]" ]

/-- The description of the arguments, line by line. -/
def description : List String :=
  [ "",
    "Token Scanner - Design Token Usage Analysis",
    "",
    "positional arguments:",
    "  directory        Local directory to scan instead of the configured",
    "                   repositories",
    "",
    "options:",
    "  -h, --help       show this help message and exit",
    "  --config CONFIG  Path to the JSON configuration file",
    "  --team TEAM      Only scan repositories owned by this team",
    "  --preset PRESET  Token format preset (default, canon)",
    "  --json           Output results in JSON format",
    "  --markdown       Output results in Markdown format",
    "  --html-report    Generate an HTML report",
    "  --no-report      Do not write the JSON report file",
    "  --changes        Detect token changes since the last processed commit",
    "  --recent HOURS   Detect token changes from the last HOURS hours",
    "  --quiet          Suppress progress output" ]

/-- Examples of calls, line by line. -/
def examples : List String :=
  [ "",
    "Examples:",
    "  token-scanner                          # Scan all configured repositories",
    "  token-scanner ../website               # Scan one local directory",
    "  token-scanner --team marketing         # Scan one team's repositories",
    "  token-scanner --preset canon           # Use the Canon token formats",
    "  token-scanner --markdown --no-report   # Markdown summary, no JSON artifact",
    "  token-scanner --changes                # Token changes since the last scan",
    "  token-scanner --recent 48              # Token changes in the last 48 hours" ]

/-- The whole help. -/
def help : List String := usage ++ description ++ examples

end DesignTokens.CommandLine
