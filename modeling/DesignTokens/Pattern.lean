import DesignTokens.Text.Blank
import DesignTokens.Text.Case
import DesignTokens.Text.Integer

/-!
# Text patterns

Patterns for finding references and definitions in source text. A pattern is tried at a place of
the text and takes the first way of matching in a fixed order of preference: the left branch of an
alternative before the right one, and the longest run before shorter ones. `findAll` collects the
matches from left to right that do not overlap.
-/

namespace DesignTokens

/-- A pattern over characters. -/
inductive Pattern
  /-- Matches without taking a character. -/
  | empty
  /-- One character of a class. -/
  | one (holds : Char → Bool)
  /-- The first pattern, then the second. -/
  | seq (first second : Pattern)
  /-- The first pattern or else the second. -/
  | alt (first second : Pattern)
  /-- A run of characters of a class, as long as possible, perhaps empty. -/
  | many (holds : Char → Bool)
  /-- A pattern whose text is kept under a number. -/
  | group (number : Nat) (inner : Pattern)
  /-- The end of the text, or the place before a line feed that ends it. -/
  | atEnd

namespace Pattern

/-- The part of a text before a rest of it. -/
def before (s rest : List Char) : List Char :=
  s.take (s.length - rest.length)

/-- What a group kept: the text from where it began to where it ended, given by what follows these
two places. -/
structure Capture where
  number : Nat
  beginning : List Char
  ending : List Char
  deriving DecidableEq, Repr

/-- The text that a group kept. -/
def Capture.text (c : Capture) : List Char := before c.beginning c.ending

/-- What groups kept, the latest first. -/
abbrev Captures := List Capture

/-- What follows a run of characters of a class, the longest run first and the empty run last;
`shorter` holds what follows the runs passed so far. -/
def runEndsFrom (holds : Char → Bool) (shorter : List (List Char)) : List Char → List (List Char)
  | [] => [] :: shorter
  | s@(c :: rest) => if holds c then runEndsFrom holds (s :: shorter) rest else s :: shorter

/-- What follows a run at the beginning of a text, the longest run first. -/
def runEnds (holds : Char → Bool) (s : List Char) : List (List Char) :=
  runEndsFrom holds [] s

/-- Tries a pattern at the beginning of a text and continues with what follows it; the answer is
that of the first way of matching from which the continuation succeeds. -/
def exec {α : Type} : Pattern → List Char → Captures → (List Char → Captures → Option α) → Option α
  | empty, s, g, k => k s g
  | one _, [], _, _ => none
  | one holds, c :: s, g, k => if holds c then k s g else none
  | seq a b, s, g, k => exec a s g fun s' g' => exec b s' g' k
  | alt a b, s, g, k =>
    match exec a s g k with
    | some r => some r
    | none => exec b s g k
  | many holds, s, g, k => (runEnds holds s).findSome? fun s' => k s' g
  | group number a, s, g, k => exec a s g fun s' g' => k s' (⟨number, s, s'⟩ :: g')
  | atEnd, s, g, k => if s = [] ∨ s = ['\n'] then k s g else none

/-- A match: its text, the text after it, and what its groups kept. -/
structure Match where
  text : List Char
  rest : List Char
  captures : Captures
  deriving DecidableEq, Repr

/-- The text that a group kept, if it took part in the match. -/
def Match.capture? (m : Match) (number : Nat) : Option (List Char) :=
  (m.captures.find? fun c => c.number = number).map Capture.text

/-- The text that a group kept, or nothing. -/
def Match.capture (m : Match) (number : Nat) : List Char :=
  (m.capture? number).getD []

/-- The match at the beginning of a text. -/
def matchAt (p : Pattern) (s : List Char) : Option Match :=
  p.exec s [] fun rest g => some ⟨before s rest, rest, g⟩

/-- Whether a text begins with a match. -/
def begins (p : Pattern) (s : List Char) : Bool :=
  (p.matchAt s).isSome

/-- A match and the index where it starts. -/
structure Found where
  start : Nat
  found : Match
  deriving DecidableEq, Repr

/-- The match at the beginning of a text that takes at least one character of it. -/
def takingAt (p : Pattern) (s : List Char) : Option Match :=
  p.exec s [] fun rest g =>
    if rest.length < s.length then some ⟨before s rest, rest, g⟩ else none

/-- The matches that start at one place: an empty match may be followed by one that takes
something. -/
def matchesAt (p : Pattern) (s : List Char) : List Match :=
  match p.matchAt s with
  | none => []
  | some m => m :: if m.text = [] then (p.takingAt s).toList else []

/-- How many characters of a text are passed over after the matches at its first place. -/
def skipAfter (found : List Match) : Nat :=
  ((found.getLast?.map (·.text.length)).getD 0) - 1

/-- The matches in a text that starts at index `position`, after `skip` characters of it. -/
def findFrom (p : Pattern) : Nat → Nat → List Char → List Found
  | position, _, [] => (p.matchesAt []).map (⟨position, ·⟩)
  | position, skip + 1, _ :: s => findFrom p (position + 1) skip s
  | position, 0, c :: s =>
    (p.matchesAt (c :: s)).map (⟨position, ·⟩) ++
      findFrom p (position + 1) (skipAfter (p.matchesAt (c :: s))) s

/-- The matches in a text from left to right, none overlapping an earlier one. -/
def findAll (p : Pattern) (s : List Char) : List Found :=
  p.findFrom 0 0 s

/-- The leftmost match in a text. -/
def search (p : Pattern) : List Char → Option Match
  | [] => p.matchAt []
  | c :: s =>
    match p.matchAt (c :: s) with
    | some m => some m
    | none => search p s

/-- Whether a text has a match. -/
def occursIn (p : Pattern) (s : List Char) : Bool :=
  (p.search s).isSome

/-- A fixed text. -/
def lit (s : String) : Pattern :=
  s.toList.foldr (fun c p => seq (one (· == c)) p) empty

/-- A fixed text without regard to case. -/
def litFold (s : String) : Pattern :=
  s.toList.foldr (fun c p => seq (one fun d => Text.foldCase d == Text.foldCase c) p) empty

/-- A pattern or nothing. -/
def opt (p : Pattern) : Pattern := alt p empty

/-- A run of at least one character of a class. -/
def many1 (holds : Char → Bool) : Pattern := seq (one holds) (many holds)

/-- The patterns one after the other. -/
def all (ps : List Pattern) : Pattern := ps.foldr seq empty

/-- The first of the patterns that leads to a match. -/
def anyOf : List Pattern → Pattern
  | [] => one fun _ => false
  | [p] => p
  | p :: ps => alt p (anyOf ps)

/-- One of several fixed texts. -/
def words (ws : List String) : Pattern := anyOf (ws.map lit)

/-- A run of white space, perhaps empty. -/
def blanks : Pattern := many Text.isBlank

/-- Any of the characters of a text. -/
def within (s : String) (c : Char) : Bool := s.toList.contains c

/-- Any character but those of a text. -/
def without (s : String) (c : Char) : Bool := !s.toList.contains c

/-- An ASCII letter or digit. -/
def isAlphanumeric (c : Char) : Bool :=
  ('a' ≤ c && c ≤ 'z') || ('A' ≤ c && c ≤ 'Z') || ('0' ≤ c && c ≤ '9')

end Pattern

end DesignTokens
