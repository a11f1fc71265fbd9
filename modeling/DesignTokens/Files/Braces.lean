import DesignTokens.Files.Wildcard
import DesignTokens.Text.Lines

/-!
# Alternatives in braces

A pattern may list alternatives between braces. The leftmost group without braces inside is
replaced by each of its alternatives in turn, until no such group is left; every replacement takes
one pair of braces away, so the number of pairs tells how many replacements follow one another.
-/

namespace DesignTokens

variable [Nesting.Room]

namespace Braces

/-- Whether a character is a brace. -/
def isBrace (c : Char) : Bool := c = '\x7b' || c = '\x7d'

/-- The text before the leftmost group without braces inside, its inside, and the text after. -/
def group? : List Char → Option (List Char × List Char × List Char)
  | [] => none
  | c :: s =>
    let further := (group? s).map fun g => (c :: g.1, g.2)
    if c = '\x7b' then
      match s.dropWhile fun d => !isBrace d with
      | '\x7d' :: after => some ([], s.takeWhile (fun d => !isBrace d), after)
      | _ => further
    else further

/-- Replaces groups, at most `fuel` one after the other. -/
def expandFrom : Nat → List Char → List (List Char)
  | 0, s => [s]
  | fuel + 1, s =>
    match group? s with
    | none => [s]
    | some (before, inside, after) =>
      (Text.splitOn ',' inside).flatMap fun option => expandFrom fuel (before ++ option ++ after)

/-- The patterns that a pattern with alternatives stands for. -/
def expand (pattern : List Char) : List (List Char) :=
  expandFrom (pattern.count '\x7d') pattern

/-- The number of pairs of braces, given the number of braces still open. -/
def pairsFrom : Nat → List Char → Nat
  | _, [] => 0
  | open_, c :: s =>
    if c = '\x7b' then pairsFrom (open_ + 1) s
    else if c = '\x7d' && open_ ≠ 0 then pairsFrom (open_ - 1) s + 1
    else pairsFrom open_ s

/-- The number of pairs of braces in a pattern. -/
def pairs (pattern : List Char) : Nat := pairsFrom 0 pattern

/-- The patterns that a pattern stands for, unless more replacements follow one another than there
is room for at a place. -/
def expansionsAt (site : Nesting.Site) (pattern : List Char) :
    Except Failure (List (List Char)) :=
  if site.limit < pairs pattern then .error (.tooDeep .groups) else .ok (expand pattern)

/-- The patterns that a pattern stands for, unless too many replacements follow one another. -/
def expansions (pattern : List Char) : Except Failure (List (List Char)) :=
  expansionsAt .expansion pattern

end Braces

namespace Wildcard

/-- The beginning of a pattern that matches in every directory. -/
def anyDirectory : List Char := ['*', '*', '/']

/-- Whether a pattern without alternatives matches a relative path; a pattern for every directory
also matches at the top. -/
def matchesPath (pattern path : List Char) : Bool :=
  isMatch pattern path ||
    (anyDirectory.isPrefixOf pattern && isMatch (pattern.drop 3) path)

/-- The characters of a pattern. No path has a half of a pair in it, so the character that no path
has can stand for one. -/
def characters (pattern : Spelling) : List Char :=
  (pattern.filled (Char.ofNat 0)).toList

/-- Whether one of the patterns matches a relative path. A pattern that is reached must be a
text, and its groups are replaced where there is less room by a call. -/
def matchesAny (path : List Char) : List Value → Except Failure Bool
  | [] => .ok false
  | .text p :: rest => do
    if (← Braces.expansionsAt .test (characters p)).any fun q => matchesPath q path then .ok true
    else matchesAny path rest
  | _ :: _ => .error .wrongKind

end Wildcard

end DesignTokens
