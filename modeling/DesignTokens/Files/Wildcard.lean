import DesignTokens.Failure

/-!
# Wildcard patterns

Patterns for whole names: `*` stands for any text, `?` for any character, and a class in brackets
for one character of a set. A class begins after `[` or `[!`, may have a bracket as its first
character, and ends at the next closing bracket; without one the opening bracket stands for
itself.
-/

namespace DesignTokens.Wildcard

/-- A part of a pattern. -/
inductive Item
  /-- Any text, perhaps none. -/
  | star
  /-- One character of a set. -/
  | one (holds : Char → Bool)

/-- Cuts the inside of a class at the dashes that make ranges. The first `skip` characters of each
piece are no such dashes; `fuel` bounds the number of pieces. -/
def pieces : Nat → Nat → List Char → List (List Char)
  | 0, _, s => [s]
  | fuel + 1, skip, s =>
    let piece := s.take skip ++ (s.drop skip).takeWhile (· ≠ '-')
    match s.drop piece.length with
    | [] => [piece]
    | [_] => [piece ++ ['-']]
    | _ :: rest => piece :: pieces fuel 2 rest

/-- Joins two neighbours whose range is empty, leaving out the ends of that range. -/
def joinEmptyRange (piece : List Char) : List (List Char) → List (List Char)
  | [] => [piece]
  | next :: rest =>
    match piece.getLast?, next with
    | some low, high :: more =>
      if high < low then (piece.dropLast ++ more) :: rest else piece :: next :: rest
    | _, _ => piece :: next :: rest

/-- Whether a character is in one of the pieces or in a range between two neighbours. -/
def inPieces (c : Char) : List (List Char) → Bool
  | [] => false
  | [piece] => piece.contains c
  | piece :: next :: rest =>
    let between := match piece.getLast?, next.head? with
      | some low, some high => low ≤ c && c ≤ high
      | _, _ => c = '-'
    piece.contains c || between || inPieces c (next :: rest)

/-- The set that the inside of a class stands for. After an exclamation mark it is the set of all
other characters; a class left empty holds nothing, and its negation everything. -/
def classOf (inside : List Char) : Char → Bool :=
  let parts :=
    if inside.contains '-' then
      (pieces inside.length (if inside.head? = some '!' then 2 else 1) inside).foldr
        joinEmptyRange []
    else [inside]
  match parts with
  | ('!' :: piece) :: rest => fun c => !inPieces c (piece :: rest)
  | _ => fun c => inPieces c parts

/-- The inside of a class after its opening bracket and what follows its closing bracket. -/
def bracket? (s : List Char) : Option (List Char × List Char) :=
  let lead := match s with
    | '!' :: ']' :: _ => 2
    | '!' :: _ => 1
    | ']' :: _ => 1
    | _ => 0
  let inside := s.take lead ++ (s.drop lead).takeWhile (· ≠ ']')
  match s.drop inside.length with
  | [] => none
  | _ :: rest => some (inside, rest)

/-- The parts of a pattern; each takes at least one character of it. -/
def itemsFrom : Nat → List Char → List Item
  | 0, _ => []
  | _ + 1, [] => []
  | fuel + 1, '*' :: s => .star :: itemsFrom fuel s
  | fuel + 1, '?' :: s => .one (fun _ => true) :: itemsFrom fuel s
  | fuel + 1, '[' :: s =>
    match bracket? s with
    | some (inside, rest) => .one (classOf inside) :: itemsFrom fuel rest
    | none => .one (· == '[') :: itemsFrom fuel s
  | fuel + 1, c :: s => .one (· == c) :: itemsFrom fuel s

/-- The parts of a pattern. -/
def items (pattern : List Char) : List Item :=
  itemsFrom pattern.length pattern

/-- Whether some end of a text satisfies `p`. -/
def anySuffix (p : List Char → Bool) : List Char → Bool
  | [] => p []
  | c :: s => p (c :: s) || anySuffix p s

/-- Whether the parts match a whole text. -/
def matchesItems : List Item → List Char → Bool
  | [], s => s.isEmpty
  | .star :: rest, s => anySuffix (matchesItems rest) s
  | .one _ :: _, [] => false
  | .one holds :: rest, c :: s => holds c && matchesItems rest s

/-- The classes of characters between stars: those before the first star, those between it and the
next one, and so on. -/
def runs : List Item → List (List (Char → Bool))
  | [] => [[]]
  | .star :: rest => [] :: runs rest
  | .one holds :: rest =>
    match runs rest with
    | [] => [[holds]]
    | run :: further => (holds :: run) :: further

/-- What follows the first characters of a text, if there is one in each class. -/
def afterRun : List (Char → Bool) → List Char → Option (List Char)
  | [], s => some s
  | _ :: _, [] => none
  | holds :: run, c :: s => if holds c then afterRun run s else none

/-- What follows the first place of a text where there is a character in each class. -/
def afterFirst (run : List (Char → Bool)) : List Char → Option (List Char)
  | [] => afterRun run []
  | c :: s =>
    match afterRun run (c :: s) with
    | some rest => some rest
    | none => afterFirst run s

/-- Whether there is nothing but a character in each class. -/
def isRun (run : List (Char → Bool)) (s : List Char) : Bool :=
  match afterRun run s with
  | some [] => true
  | _ => false

/-- Whether the runs match a text that may begin with anything. The first place for a run leaves the
most text for the others, so no other place has to be tried; the last run is at the end. -/
def matchesAnywhere : List (List (Char → Bool)) → List Char → Bool
  | [], _ => false
  | [run], s => isRun run (s.drop (s.length - run.length))
  | run :: next :: further, s =>
    match afterFirst run s with
    | some rest => matchesAnywhere (next :: further) rest
    | none => false

/-- Whether runs with stars between them match a whole text. -/
def matchesRuns : List (List (Char → Bool)) → List Char → Bool
  | [], _ => false
  | [run], s => isRun run s
  | run :: next :: further, s =>
    match afterRun run s with
    | some rest => matchesAnywhere (next :: further) rest
    | none => false

/-- Whether a pattern matches a whole text. -/
def isMatch (pattern text : List Char) : Bool :=
  matchesRuns (runs (items pattern)) text

/-- Whether a text has a character with a meaning in patterns. -/
def isWild (s : List Char) : Bool :=
  s.any fun c => c = '*' || c = '?' || c = '['

end DesignTokens.Wildcard
