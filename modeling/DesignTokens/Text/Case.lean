import DesignTokens.Text.CaseTable

/-!
# Upper and lower case

The full case mappings of a text, in which one character may become several and a capital sigma
at the end of a word becomes the final small sigma, and the comparison that disregards case in
search patterns.
-/

namespace DesignTokens.Text

/-- Whether a code point lies in one of the inclusive ranges. -/
def inRanges (ranges : List (Nat × Nat)) (n : Nat) : Bool :=
  ranges.any fun r => r.1 ≤ n && n ≤ r.2

/-- The image of a code point under the first run that holds it, or the code point itself. -/
def shiftBy (runs : List (Nat × Nat × Nat × Int)) (n : Nat) : Nat :=
  match runs.find? fun r => r.1 ≤ n && n ≤ r.2.1 && (n - r.1) % r.2.2.1 == 0 with
  | some r => (n + r.2.2.2 : Int).toNat
  | none => n

/-- A capital sigma ends a word if a cased character stands before it and none after it, where
characters that carry no case of their own are skipped. -/
def endsWord (before after : List Char) : Bool :=
  let cased (s : List Char) : Bool :=
    match s.dropWhile fun c => inRanges caseIgnorableRanges c.toNat with
    | [] => false
    | c :: _ => inRanges casedRanges c.toNat
  cased before && !cased after

/-- The lower case of one character between the reversed text before it and the text after it. -/
def lowerChar (before : List Char) (c : Char) (after : List Char) : List Char :=
  let n := c.toNat
  if n < 0x80 then [c.toLower]
  else if n = 0x130 then ['i', Char.ofNat 0x307]
  else if n = 0x3A3 then [if endsWord before after then Char.ofNat 0x3C2 else Char.ofNat 0x3C3]
  else [Char.ofNat (shiftBy lowerRuns n)]

/-- Lower case of a text that follows the reversed text `before`. -/
def lowerFrom (before : List Char) : List Char → List Char
  | [] => []
  | c :: rest => lowerChar before c rest ++ lowerFrom (c :: before) rest

/-- Lower case of a text. -/
def lower (s : List Char) : List Char :=
  lowerFrom [] s

/-- Lower case of a string. -/
def lowerString (s : String) : String :=
  String.ofList (lower s.toList)

/-- Upper case of one character. -/
def upperChar (c : Char) : List Char :=
  let n := c.toNat
  if n < 0x80 then [c.toUpper]
  else match upperExpansions.find? fun e => e.1 == n with
    | some e => e.2.map Char.ofNat
    | none => [Char.ofNat (shiftBy upperRuns n)]

/-- One representative of the characters that a search without regard to case takes for equal, as
far as ASCII letters are concerned: besides the other case, the long s, the Kelvin sign and the
two Turkish forms of the letter i. -/
def foldCase (c : Char) : Char :=
  let n := c.toNat
  if n = 0x17F then 's'
  else if n = 0x212A then 'k'
  else if n = 0x130 || n = 0x131 then 'i'
  else c.toLower

end DesignTokens.Text
