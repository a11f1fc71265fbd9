import DesignTokens.Text.Blank
import DesignTokens.Text.DigitTable

/-!
# Whole numbers in text

Reading a whole number with optional sign, single underscores between digits, digits of any
script, and white space around it. Numbers of more than 4300 digits are refused.
-/

namespace DesignTokens.Text

/-- The value of a decimal digit of any script. -/
def digitValue? (c : Char) : Option Nat :=
  let n := c.toNat
  if n < 0x80 then if 48 ≤ n && n ≤ 57 then some (n - 48) else none
  else digitZeros.findSome? fun first =>
    if first ≤ n && n < first + 10 then some (n - first) else none

/-- Whether a character is a decimal digit of some script. -/
def isDigit (c : Char) : Bool :=
  (digitValue? c).isSome

/-- The number that the digits spell in base ten. -/
def ofDigits (digits : List Nat) : Nat :=
  digits.foldl (fun n d => 10 * n + d) 0

namespace Integer

/-- The most digits a number may have. -/
def digitLimit : Nat := 4300

/-- Why a text is not a number. -/
inductive Fault
  /-- The text has not the form of a number. -/
  | malformed
  /-- The number has more digits than the limit. -/
  | tooLong (digits : Nat)
  deriving DecidableEq, Repr

/-- White space around a number; the four ASCII separator controls do not belong to it. -/
def isPadding (c : Char) : Bool :=
  isBlank c && !(0x1C ≤ c.toNat && c.toNat ≤ 0x1F)

/-- Digits with single underscores between them. -/
def wellGrouped (s : List Char) : Bool :=
  !s.isEmpty && s.head? != some '_' && s.getLast? != some '_' &&
    (s.zip s.tail).all fun p => !(p.1 = '_' && p.2 = '_')

/-- The number without its sign. -/
def magnitude (body : List Char) : Except Fault Nat :=
  let isDigitOrMark := fun c => isDigit c || c = '_'
  let digits := body.takeWhile isDigitOrMark
  let values := digits.filterMap digitValue?
  if !wellGrouped digits then .error .malformed
  else if digitLimit < values.length then .error (.tooLong values.length)
  else if (body.dropWhile isDigitOrMark).all isPadding then .ok (ofDigits values)
  else .error .malformed

/-- The number that a text spells. -/
def parse (s : List Char) : Except Fault Int :=
  match s.dropWhile isPadding with
  | '-' :: body => (magnitude body).map fun n => -(n : Int)
  | '+' :: body => (magnitude body).map fun n => (n : Int)
  | body => (magnitude body).map fun n => (n : Int)

end Integer

end DesignTokens.Text
