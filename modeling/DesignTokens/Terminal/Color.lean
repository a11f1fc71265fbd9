import DesignTokens.Text.Lines

/-!
# Colors of the terminal

The sequences that switch colors and weight on and off, and texts without them.
-/

namespace DesignTokens.Terminal

/-- The character that begins a sequence. -/
def escape : Char := '\x1b'

/-- The sequence with a number. -/
def sequence (code : String) : String :=
  String.singleton escape ++ "[" ++ code ++ "m"

def reset : String := sequence "0"
def grey : String := sequence "90"
def green : String := sequence "92"
def yellow : String := sequence "93"
def red : String := sequence "91"
def bold : String := sequence "1"

/-- A text in a color or weight. -/
def paint (style text : String) : String := style ++ text ++ reset

/-- Whether a character may stand between the bracket and the letter of a sequence. -/
def isParameter (c : Char) : Bool := ('0' ≤ c && c ≤ '9') || c = ';'

/-- How many characters the sequence at the beginning of a text takes, if one is there. -/
def sequenceLength? : List Char → Option Nat
  | '\x1b' :: '[' :: rest =>
    let parameters := rest.takeWhile isParameter
    match rest.drop parameters.length with
    | 'm' :: _ => some (parameters.length + 3)
    | _ => none
  | _ => none

/-- The text without its sequences, `skip` characters of the first one being left over. -/
def stripFrom : Nat → List Char → List Char
  | _, [] => []
  | skip + 1, _ :: rest => stripFrom skip rest
  | 0, c :: rest =>
    match sequenceLength? (c :: rest) with
    | some n => stripFrom (n - 1) rest
    | none => c :: stripFrom 0 rest

/-- The text without its sequences. -/
def strip (text : String) : String :=
  String.ofList (stripFrom 0 text.toList)

/-- The text with every occurrence of a part replaced, `skip` characters of the first one being
left over. -/
def replaceFrom (part new : List Char) : Nat → List Char → List Char
  | _, [] => []
  | skip + 1, _ :: rest => replaceFrom part new skip rest
  | 0, c :: rest =>
    if part.isPrefixOf (c :: rest) then new ++ replaceFrom part new (part.length - 1) rest
    else c :: replaceFrom part new 0 rest

/-- The text with emphasis in place of the sequences for bold and for the end of a style, and
without the other sequences. -/
def emphasize (text : String) : String :=
  let marked :=
    replaceFrom reset.toList ['*', '*'] 0 (replaceFrom bold.toList ['*', '*'] 0 text.toList)
  String.ofList (stripFrom 0 marked)

end DesignTokens.Terminal
