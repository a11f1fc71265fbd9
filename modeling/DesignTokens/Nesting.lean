/-!
# Limits of nesting

Things that contain things of their own kind are followed level by level, each level by a call
inside the one before. So how far they are followed depends on the calls that are under way already
where this begins: the stack holds a fixed number of calls, and each place at which something nested
is followed has the room that is left there. The room is a parameter of all that follows nested
things. Each kind has a wording for what is nested deeper; nothing is done with a part of it.
-/

namespace DesignTokens

/-- What may be nested too deeply. -/
inductive Nesting
  /-- Lists in a document. -/
  | lists
  /-- Objects in a document. -/
  | objects
  /-- Groups of alternatives that are replaced one after the other. -/
  | groups
  /-- Segments of a pattern for paths. -/
  | segments
  /-- Missing directories above a directory, counted before any is made. -/
  | directories
  /-- Missing directories above a file, noticed when the lowest is made. -/
  | ancestors
  /-- Lists and objects in the fields of a report. -/
  | fields
  deriving DecidableEq, Repr

namespace Nesting

/-- The wording for what is nested deeper. -/
def message (n : Nesting) : String :=
  "maximum recursion depth exceeded" ++ match n with
    | .lists => " while decoding a JSON array from a unicode string"
    | .objects => " while decoding a JSON object from a unicode string"
    | .groups | .ancestors => " while calling a Python object"
    | .segments | .directories | .fields => ""

/-- The places at which something nested is followed. -/
inductive Site
  /-- The lists and objects of a configuration are read. -/
  | settings
  /-- The groups of a pattern are replaced by their alternatives. -/
  | expansion
  /-- The groups of a pattern are replaced in order to test a path against it. -/
  | test
  /-- The segments of a pattern for files are matched. -/
  | search
  /-- The directories above a working copy are made. -/
  | copies
  /-- The directories above the one for reports are made. -/
  | reports
  /-- The directories above the file for the last processed commit are made. -/
  | pointer
  /-- The fields of a repository are taken into a report. -/
  | repository
  /-- The fields of a category are taken into a report. -/
  | category
  deriving DecidableEq, Repr

/-- The most calls that the stack holds. -/
def stackLimit : Nat := 1000

/-- The room that the calls under way leave at each place. A level takes a call at least, except in
a search: the end of a pattern that was the end of an earlier one takes none. -/
class Room where
  limit : Site → Nat
  limit_le (s : Site) (h : s ≠ .search) : limit s ≤ stackLimit

/-- How many levels are followed at a place. -/
def Site.limit [room : Room] (s : Site) : Nat := room.limit s

/-- No place but a search has more room than the stack. -/
theorem Site.limit_le [room : Room] {s : Site} (h : s ≠ .search) : s.limit ≤ stackLimit :=
  room.limit_le s h

/-- The room in a program that has made a few calls. -/
@[reducible] def Room.ample : Room where
  limit
    | .settings => 984
    | .expansion | .pointer => 986
    | .test => 985
    | .search => 197
    | .copies | .reports => 989
    | .repository => 489
    | .category => 488
  limit_le s _ := by cases s <;> decide

end Nesting

end DesignTokens
