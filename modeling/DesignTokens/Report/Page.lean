import DesignTokens.Report.Basic

/-!
# The report as a page

The page is a sequence of pieces: fixed ones, which are markup, and inserted ones, which come from
the report and are written with entities for the characters that mean something in markup. How
many pieces of which kind there are depends only on the number of tokens, repositories, patterns
and errors.
-/

namespace DesignTokens

/-- A part of a page. -/
inductive PagePiece
  /-- Markup. -/
  | fixed (text : String)
  /-- Text from the report. -/
  | inserted (text : Spelling)
  deriving DecidableEq, Repr, Inhabited

namespace Page

/-- A character in text: those that mean something in markup are written as entities. -/
def escapeChar (c : Char) : List Char :=
  if c = '&' then "&amp;".toList
  else if c = '<' then "&lt;".toList
  else if c = '>' then "&gt;".toList
  else if c = '\'' then "&#39;".toList
  else if c = '"' then "&#34;".toList
  else [c]

/-- A text without characters that mean something in markup. -/
def escape (text : List Char) : List Char :=
  text.flatMap escapeChar

/-- A piece as it is written. -/
def writtenPiece : PagePiece → List Char
  | .fixed text => text.toList
  | .inserted text => escape text.shown.toList

/-- The halves of pairs in a piece, by their index in the piece as it is written. -/
def halvesIn : PagePiece → Option Spelling.Halves
  | .fixed _ => none
  | .inserted text =>
    text.halves?.map fun h => { h with position := (escape text.start.toList).length }

/-- The halves of pairs in pieces that begin at an index of the page. -/
def halvesFrom (position : Nat) : List PagePiece → Option Spelling.Halves
  | [] => none
  | piece :: rest =>
    match halvesIn piece with
    | some h => some { h with position := position + h.position }
    | none => halvesFrom (position + (writtenPiece piece).length) rest

/-- The page that pieces make up. -/
def written (pieces : List PagePiece) : String :=
  String.ofList (pieces.flatMap writtenPiece)

/-- Lines of markup. -/
def lines (parts : List String) : PagePiece :=
  .fixed (String.intercalate "\n" parts)

/-- An inserted value. -/
def insert (v : Value) : PagePiece :=
  .inserted v.spelled

/-- The markup up to the date. -/
def head : PagePiece :=
  lines
    [ "",
      "<!DOCTYPE html>",
      "<html lang=\"en\">",
      "<head>",
      "    <meta charset=\"UTF-8\">",
      "    <title>Token Usage Report</title>",
      "    <style>",
      "        body \x7b font-family: Arial, sans-serif; background: #f8f8f8; color: #222; \x7d",
      "        .container \x7b max-width: 900px; margin: 2em auto; background: #fff; padding: 2em; " ++
        "border-radius: 8px; box-shadow: 0 2px 8px #0001; \x7d",
      "        h1 \x7b color: #2d5be3; \x7d",
      "        table \x7b border-collapse: collapse; width: 100%; margin-bottom: 1em; \x7d",
      "        th, td \x7b text-align: left; padding: 0.4em 0.6em; border-bottom: 1px solid #eee; \x7d",
      "        .section \x7b margin-bottom: 2em; \x7d",
      "        .errors \x7b background: #fdecea; padding: 1em; border-radius: 6px; \x7d",
      "        .timestamp \x7b color: #888; font-size: 0.9em; \x7d",
      "    </style>",
      "</head>",
      "<body>",
      "    <div class=\"container\">",
      "        <h1>Token Usage Report</h1>",
      "        <div class=\"timestamp\">Generated: " ]

/-- The markup after the date and the overview of the report. -/
def overview (r : Report) : List PagePiece :=
  [ lines
      [ "</div>",
        "        <div class=\"section\">",
        "            <h2>Overview</h2>",
        "            <p>" ],
    insert (.int r.repositories.length),
    .fixed " repositories, ",
    insert (.int r.totalTokens),
    lines [" token usages,", "               "],
    insert (.int r.uniqueTokens),
    .fixed " unique tokens, average coverage ",
    insert r.summary.averageValue,
    lines ["%</p>", "        </div>", "        "] ]

/-- A row of a table with three cells. -/
def row (first second third : Value) : List PagePiece :=
  [ lines ["", "                <tr><td>"],
    insert first,
    .fixed "</td><td>",
    insert second,
    .fixed "</td><td>",
    insert third,
    lines ["</td></tr>", "                "] ]

/-- The table of the tokens that are used most, if there are any. -/
def topTokens (tokens : List TopToken) : List PagePiece :=
  if tokens.isEmpty then []
  else
    lines
      [ "",
        "        <div class=\"section\">",
        "            <h2>Top Tokens</h2>",
        "            <table>",
        "                <tr><th>Token</th><th>Usage</th><th>Category</th></tr>",
        "                " ] ::
    (tokens.flatMap (fun t => row (.text t.name) (.int t.usage) (.text (t.category.getD ""))) ++
      [lines ["", "            </table>", "        </div>", "        "]])

/-- The table of the structural patterns in a repository, if there are any. -/
def patterns (found : List UiPattern) : List PagePiece :=
  if found.isEmpty then []
  else
    lines
      [ "",
        "            <table>",
        "                <tr><th>Pattern</th><th>Usage</th><th>Complexity</th></tr>",
        "                " ] ::
    (found.flatMap (fun p => row (.text p.name) (.int p.count) (.text p.complexity.word)) ++
      [lines ["", "            </table>", "            "]])

/-- The errors of a repository, if there are any. -/
def errors (messages : List String) : List PagePiece :=
  if messages.isEmpty then []
  else
    lines ["", "            <div class=\"errors\">", "                "] ::
    (messages.flatMap (fun e => [.fixed "<div>", .inserted e, .fixed "</div>"]) ++
      [lines ["", "            </div>", "            "]])

/-- The section on a repository. -/
def repository (r : ScanResult) : List PagePiece :=
  [ lines ["", "        <div class=\"section\">", "            <h2>"],
    insert r.repository.name,
    lines ["</h2>", "            <p>"],
    insert (.int r.summary.scannedFiles),
    .fixed "/",
    insert (.int r.summary.totalFiles),
    lines [" files scanned,", "               "],
    insert (.int r.totalUsage),
    .fixed " usages, coverage ",
    insert (.int r.coverage),
    lines ["%</p>", "            "] ] ++
  patterns r.patterns ++ [lines ["", "            "]] ++ errors r.errors ++
  [lines ["", "        </div>", "        "]]

/-- The pieces of the page on a report. -/
def pieces (generated : Timestamp) (r : Report) : List PagePiece :=
  [head, .inserted generated.plain] ++ overview r ++ topTokens r.summary.topTokens ++
    [lines ["", "        "]] ++ r.repositories.flatMap repository ++
    [lines ["", "    </div>", "</body>", "</html>"]]

/-- The page on a report. -/
def ofReport (generated : Timestamp) (r : Report) : String :=
  written (pieces generated r)

/-- The halves of pairs in the page on a report, which has then no bytes. -/
def halves? (generated : Timestamp) (r : Report) : Option Spelling.Halves :=
  halvesFrom 0 (pieces generated r)

end Page

end DesignTokens
