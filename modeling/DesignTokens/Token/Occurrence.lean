import DesignTokens.Token.Format

/-!
# Occurrences of tokens in text

Where a format matches in a text: line by line, and within a line from left to right without
overlap. Each occurrence shows the part of its line around the place where the match starts.
-/

namespace DesignTokens

/-- One place where a token format matched. -/
structure Occurrence where
  filePath : String
  /-- Counted from one. -/
  line : Nat
  /-- Counted from one, in characters. -/
  column : Nat
  context : String
  matchedText : String
  formatName : String
  deriving DecidableEq, Repr, BEq

/-- The elements from index `start` up to `stop`; a negative index counts from the end. -/
def slice {α : Type} (xs : List α) (start stop : Int) : List α :=
  let place (i : Int) : Nat := (if i < 0 then i + xs.length else i).toNat
  (xs.take (place stop)).drop (place start)

/-- The part of a line around an index: at most `length` characters on either side. -/
def contextAround (line : List Char) (index length : Int) : List Char :=
  slice line (max 0 (index - length)) (min line.length (index + length))

namespace Occurrence

/-- How many characters of context are kept on either side by default. -/
def defaultContext : Int := 50

end Occurrence

namespace Pattern.Match

/-- The token that a match refers to: what the first group kept, or the whole match if the group
kept nothing. -/
def tokenName (m : Pattern.Match) : List Char :=
  match m.capture 1 with
  | [] => m.text
  | name => name

end Pattern.Match

namespace TokenFormat

/-- The matches of a format in one line of a file, each with the token it refers to. -/
def matchesInLine (f : TokenFormat) (path : String) (contextLength : Int) (lineNumber : Nat)
    (line : List Char) : List (String × Occurrence) :=
  (f.pattern.findAll line).map fun m =>
    (String.ofList m.found.tokenName,
      { filePath := path
        line := lineNumber
        column := m.start + 1
        context := String.ofList (contextAround line m.start contextLength)
        matchedText := String.ofList m.found.text
        formatName := f.name })

/-- The matches of a format in a text, in the order of the text. -/
def matchesIn (f : TokenFormat) (content path : String) (contextLength : Int) :
    List (String × Occurrence) :=
  (Text.splitOn '\n' content.toList).zipIdx.flatMap fun l =>
    f.matchesInLine path contextLength (l.2 + 1) l.1

/-- The occurrences of a format in a text, in the order of the text. -/
def occurrences (f : TokenFormat) (content path : String) (contextLength : Int) :
    List Occurrence :=
  (f.matchesIn content path contextLength).map (·.2)

end TokenFormat

end DesignTokens
