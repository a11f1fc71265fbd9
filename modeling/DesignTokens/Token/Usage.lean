import DesignTokens.Token.Category
import DesignTokens.Token.Occurrence

/-!
# Usage of tokens

The usage of a token is the list of its occurrences with their number and their files. A file is
searched with every format that applies to it, and the matches of a format are grouped by token in
the order of their first occurrence; `aggregate` merges the usages of many files into one for each
token and format, most used first.
-/

namespace DesignTokens

/-- How often and where a token is referenced in one format. -/
structure Usage where
  tokenName : String
  /-- The format of the references. -/
  tokenType : String
  occurrences : List Occurrence
  totalCount : Int
  files : List String
  category : Option Category
  deriving Repr, Inhabited, BEq

/-- Sorts by decreasing key; equal keys keep their order. -/
def sortByCount {α : Type} (count : α → Int) (xs : List α) : List α :=
  xs.mergeSort fun a b => decide (count b ≤ count a)

/-- The items under each key, in the order in which the keys first occur. -/
def groupByKey {κ α : Type} [BEq κ] (key : α → κ) (xs : List α) : List (κ × List α) :=
  (xs.map key).eraseDups.map fun k => (k, xs.filter fun x => key x == k)

namespace Occurrence

/-- The fields of an occurrence as an object. -/
def toValue (o : Occurrence) : Value :=
  .object
    [ ("file_path", .text o.filePath), ("line", .int o.line), ("column", .int o.column),
      ("context", .text o.context), ("matched_text", .text o.matchedText),
      ("format_name", .text o.formatName) ]

end Occurrence

namespace TokenFormat

/-- The usages that a format finds in a file. Without a categorizer they have no category. -/
def usages (f : TokenFormat) (content path : String) (contextLength : Int)
    (categorizer : Option Categorizer) : Except Failure (List Usage) :=
  (groupByKey (·.1) (f.matchesIn content path contextLength)).mapM fun group => do
    let category ← match categorizer with
      | none => .ok none
      | some c => (c.categorize group.1 (some path)).map some
    .ok
      { tokenName := group.1
        tokenType := f.name
        occurrences := group.2.map (·.2)
        totalCount := group.2.length
        files := [path]
        category := category }

end TokenFormat

namespace Usage

/-- The usages in a file, searched with the formats that apply to it. -/
def inFile (formats : List TokenFormat) (content path : String) (contextLength : Int)
    (categorizer : Option Categorizer) : Except Failure (List Usage) := do
  let found ← (formats.filter (·.appliesTo path)).mapM fun f =>
    f.usages content path contextLength categorizer
  .ok found.flatten

/-- What makes usages those of one token: its name and the format. -/
def key (u : Usage) : String × String := (u.tokenName, u.tokenType)

/-- One usage for several of the same token; the category is that of the first. -/
def merge (token : String × String) (group : List Usage) : Usage :=
  { tokenName := token.1
    tokenType := token.2
    occurrences := group.flatMap (·.occurrences)
    totalCount := sumOf (group.map (·.totalCount))
    files := (group.flatMap (·.files)).eraseDups
    category := group.head?.bind (·.category) }

/-- One usage for each token and format, most used first; equally used ones keep the order in
which their tokens were first seen. -/
def aggregate (usages : List Usage) : List Usage :=
  sortByCount totalCount ((groupByKey key usages).map fun g => merge g.1 g.2)

/-- The tier that a usage counts for. -/
def tier (u : Usage) : Value :=
  match u.category with
  | some c => c.tier
  | none => .text "uncategorized"

/-- The usage counted in each tier. -/
def tierTotals (usages : List Usage) : Except Failure Tally :=
  usages.foldlM (fun t u => t.add u.tier u.totalCount) Tally.tiers

/-- The fields of a usage as an object. -/
def toValue (u : Usage) : Value :=
  .object
    [ ("token_name", .text u.tokenName), ("token_type", .text u.tokenType),
      ("occurrences", .list (u.occurrences.map Occurrence.toValue)),
      ("total_count", .int u.totalCount), ("files", .texts u.files),
      ("category", match u.category with
        | some c => c.toValue
        | none => .null) ]

end Usage

/-- The number of tokens that a design system is taken to have, where the configuration does not
say. -/
def defaultCatalogSize : Int := 250

/-- The percentage of a catalog that a number of tokens makes up. The quotient is rounded to a
floating-point number before it is multiplied and rounded to a whole number, half to even. A
percentage above 100 is possible. -/
def coverage (tokens : Nat) (catalogSize : Int) : Int :=
  if tokens = 0 ∨ catalogSize ≤ 0 then 0
  else
    (((Binary64.ofQuotient tokens catalogSize.toNat).scale 100).round?).getD 0

end DesignTokens
