import DesignTokens.Text.Case
import DesignTokens.Text.PrintableTable
import DesignTokens.Text.Spelling

/-!
# Quoted text

The form in which a message shows a text: between quotes, with backslash escapes for the quote,
the backslash and everything that is not printable. Double quotes are used only for a text with a
single quote and no double quote. A half of a pair is never printable.
-/

namespace DesignTokens.Text

/-- Letters, marks, numbers, punctuation, symbols and the plain space are printable. -/
def isPrintable (c : Char) : Bool :=
  let n := c.toNat
  if n < 0x7F then 0x20 ≤ n else !inRanges unprintableRanges n

/-- The digit for a number below sixteen, in lower case. -/
def hexDigit (n : Nat) : Char :=
  if n < 10 then Char.ofNat (48 + n) else Char.ofNat (87 + n)

/-- The last `width` hexadecimal digits of a number. -/
def hex : Nat → Nat → List Char
  | 0, _ => []
  | width + 1, n => hex width (n / 16) ++ [hexDigit (n % 16)]

/-- How one character is written between the quotes `mark`. -/
def escapeChar (mark c : Char) : List Char :=
  if c = mark || c = '\\' then ['\\', c]
  else if c = '\n' then ['\\', 'n']
  else if c = '\r' then ['\\', 'r']
  else if c = '\t' then ['\\', 't']
  else if isPrintable c then [c]
  else if c.toNat < 0x100 then '\\' :: 'x' :: hex 2 c.toNat
  else if c.toNat < 0x10000 then '\\' :: 'u' :: hex 4 c.toNat
  else '\\' :: 'U' :: hex 8 c.toNat

/-- The quote that a text is put between. -/
def quoteMark (s : List Char) : Char :=
  if s.contains '\'' && !s.contains '"' then '"' else '\''

/-- The text between quotes, with escapes. -/
def quote (s : List Char) : List Char :=
  let mark := quoteMark s
  mark :: (s.flatMap (escapeChar mark) ++ [mark])

/-- `quote` on strings. -/
def quoteString (s : String) : String :=
  String.ofList (quote s.toList)

/-- How a half of a pair is written between quotes. -/
def escapeHalf (h : Half) : List Char :=
  '\\' :: 'u' :: hex 4 h.unit

/-- A spelling between quotes, with escapes. -/
def quoteSpelling (s : Spelling) : List Char :=
  let mark := quoteMark s.shown.toList
  mark :: (s.write (escapeChar mark) escapeHalf ++ [mark])

end DesignTokens.Text
