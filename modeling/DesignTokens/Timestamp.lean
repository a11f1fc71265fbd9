/-!
# Points in time

A date and a time of day to the microsecond, and the two ways in which reports write them.
-/

namespace DesignTokens

/-- A date and a time of day. -/
structure Timestamp where
  year : Nat
  month : Nat
  day : Nat
  hour : Nat
  minute : Nat
  second : Nat
  microsecond : Nat
  deriving DecidableEq, Repr, Inhabited

namespace Timestamp

/-- A number with zeros before it up to a width. -/
def padded (width n : Nat) : List Char :=
  let digits := Nat.toDigits 10 n
  List.replicate (width - digits.length) '0' ++ digits

/-- Year, month and day with dashes. -/
def date (t : Timestamp) : List Char :=
  padded 4 t.year ++ '-' :: (padded 2 t.month ++ '-' :: padded 2 t.day)

/-- Hour, minute and second with colons. -/
def time (t : Timestamp) : List Char :=
  padded 2 t.hour ++ ':' :: (padded 2 t.minute ++ ':' :: padded 2 t.second)

/-- The form with a letter between date and time, and with microseconds unless there are none. -/
def iso (t : Timestamp) : String :=
  String.ofList (t.date ++ 'T' :: (t.time ++
    (if t.microsecond = 0 then [] else '.' :: padded 6 t.microsecond)))

/-- The form with a space between date and time, to the second; the year has no zeros before
it. -/
def plain (t : Timestamp) : String :=
  String.ofList (t.date.dropWhile (· = '0') ++ ' ' :: t.time)

/-- The form for file names: colons and points become dashes. -/
def fileSafe (t : Timestamp) : String :=
  String.ofList (t.iso.toList.map fun c => if c = ':' || c = '.' then '-' else c)

/-- The numbers that runs of digits in a text spell. -/
def numbersIn (s : String) : List (List Char) :=
  (s.toList.splitBy fun a b => a.isDigit == b.isDigit).filter fun run =>
    run.any Char.isDigit

/-- Reads the form with a letter between date and time; seconds and their fraction may be
missing. -/
def ofIso? (s : String) : Option Timestamp :=
  let value (digits : List Char) : Nat := digits.foldl (fun n c => 10 * n + (c.toNat - 48)) 0
  match numbersIn s with
  | y :: mo :: d :: rest =>
    let part (i : Nat) : Nat := value (rest.getD i [])
    let fraction := ((rest.getD 3 []) ++ List.replicate 6 '0').take 6
    some ⟨value y, value mo, value d, part 0, part 1, part 2, value fraction⟩
  | _ => none

end Timestamp

end DesignTokens
