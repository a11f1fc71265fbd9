import DesignTokens.Number.Shortest
import DesignTokens.Text.Integer
import DesignTokens.Text.Quoted
import DesignTokens.Value.Basic

/-!
# Writing JSON

The written form of a value: two spaces of indentation for each level, ASCII characters only, and
the members of an object in their order. Empty lists and objects have no line of their own. A
document is written piece by piece; a whole number of more than 4300 digits is not written, nor
anything after it.
-/

namespace DesignTokens

/-- A floating-point number in a written document. -/
def Binary64.written : Binary64 → List Char
  | .finite negative m e => finiteText negative m e
  | .infinite negative => (if negative then "-Infinity" else "Infinity").toList
  | .nan => "NaN".toList

namespace Value

/-- One unit of sixteen bits as an escape. -/
def unitEscape (n : Nat) : List Char :=
  '\\' :: 'u' :: Text.hex 4 n

/-- How one character is written in a text. -/
def writtenChar (c : Char) : List Char :=
  let n := c.toNat
  if c = '"' then ['\\', '"']
  else if c = '\\' then ['\\', '\\']
  else if c = '\n' then ['\\', 'n']
  else if c = '\r' then ['\\', 'r']
  else if c = '\t' then ['\\', 't']
  else if n = 0x0C then ['\\', 'f']
  else if n = 0x08 then ['\\', 'b']
  else if 0x20 ≤ n ∧ n < 0x7F then [c]
  else if n < 0x10000 then unitEscape n
  else
    unitEscape (0xD800 + (n - 0x10000) / 0x400) ++ unitEscape (0xDC00 + (n - 0x10000) % 0x400)

/-- A text between double quotes. A half of a pair is one unit. -/
def writtenText (s : Spelling) : List Char :=
  '"' :: (s.write writtenChar (fun h => unitEscape h.unit) ++ ['"'])

/-- A line break followed by the indentation of a level. -/
def lineBreak (level : Nat) : List Char :=
  '\n' :: List.replicate (2 * level) ' '

/-- A piece of a document: a whole number, or any other text. -/
inductive Piece
  | plain (s : List Char)
  | whole (n : Int)
  deriving DecidableEq, Repr

/-- The text of a piece. -/
def Piece.written : Piece → List Char
  | plain s => s
  | whole n => (toString n).toList

/-- The text of pieces, one after another. -/
def textOf (pieces : List Piece) : List Char := pieces.flatMap Piece.written

/-- Whether a whole number has more digits than the limit. -/
def isLong (n : Int) : Bool := Nat.pow 10 Text.Integer.digitLimit ≤ n.natAbs

/-- Whether a piece is a whole number with more digits than the limit. -/
def Piece.isLong : Piece → Bool
  | plain _ => false
  | whole n => Value.isLong n

mutual

/-- The pieces of a value at a level of indentation. -/
def piecesAt (level : Nat) : Value → List Piece
  | null => [.plain "null".toList]
  | bool b => [.plain (if b then "true" else "false").toList]
  | int n => [.whole n]
  | real x => [.plain x.written]
  | text s => [.plain (writtenText s)]
  | list [] => [.plain ['[', ']']]
  | list (v :: rest) =>
    .plain ('[' :: lineBreak (level + 1)) :: (piecesAt (level + 1) v ++
      (piecesOfItems (level + 1) rest ++ [.plain (lineBreak level ++ [']'])]))
  | object [] => [.plain ['\x7b', '\x7d']]
  | object ((k, v) :: rest) =>
    .plain ('\x7b' :: (lineBreak (level + 1) ++ (writtenText k ++ ": ".toList))) ::
      (piecesAt (level + 1) v ++
        (piecesOfMembers (level + 1) rest ++ [.plain (lineBreak level ++ ['\x7d'])]))

/-- The pieces of the items after the first, each after a comma and a line break. -/
def piecesOfItems (level : Nat) : List Value → List Piece
  | [] => []
  | v :: rest => .plain (',' :: lineBreak level) :: (piecesAt level v ++ piecesOfItems level rest)

/-- The pieces of the members after the first, each after a comma and a line break. -/
def piecesOfMembers (level : Nat) : List (Spelling × Value) → List Piece
  | [] => []
  | (k, v) :: rest =>
    .plain (',' :: (lineBreak level ++ (writtenText k ++ ": ".toList))) ::
      (piecesAt level v ++ piecesOfMembers level rest)

end

/-- The document that holds a value. -/
def written (v : Value) : String :=
  String.ofList (textOf (piecesAt 0 v))

/-- What is written of a document before the first whole number with too many digits, if it holds
such a number. -/
def cut? (v : Value) : Option String :=
  let pieces := piecesAt 0 v
  if pieces.any Piece.isLong then
    some (String.ofList (textOf (pieces.takeWhile fun p => !p.isLong)))
  else none

end Value

end DesignTokens
