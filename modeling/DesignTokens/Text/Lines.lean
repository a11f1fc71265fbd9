/-!
# Lines and fields

Three ways to cut a text. `splitOn` cuts at one character and keeps every field, so joining the
fields with that character gives the text back. `splitLines` cuts at every line boundary and has
no empty last line. `unifyNewlines` writes every newline as a line feed.
-/

namespace DesignTokens.Text

/-- The fields between the occurrences of `sep`; there is one more field than occurrences. -/
def splitOn (sep : Char) (s : List Char) : List (List Char) :=
  s.foldr
    (fun c fields =>
      if c = sep then [] :: fields
      else match fields with
        | [] => [[c]]
        | field :: more => (c :: field) :: more)
    [[]]

/-- At most `n` cuts at `sep`, from the left; the last field may contain `sep`. -/
def splitFirst (sep : Char) : Nat → List Char → List (List Char)
  | 0, s => [s]
  | n + 1, s =>
    match s.dropWhile (· ≠ sep) with
    | [] => [s]
    | _ :: rest => s.takeWhile (· ≠ sep) :: splitFirst sep n rest

/-- The fields joined with `sep` between them. -/
def joinWith (sep : List Char) : List (List Char) → List Char
  | [] => []
  | [field] => field
  | field :: more => field ++ sep ++ joinWith sep more

/-- Characters that end a line: line feed, carriage return, vertical tab, form feed, the file,
group and record separators, next line, and the line and paragraph separators. -/
def isLineBoundary (c : Char) : Bool :=
  let n := c.toNat
  (0x0A ≤ n && n ≤ 0x0D) || (0x1C ≤ n && n ≤ 0x1E) || n == 0x85 || n == 0x2028 || n == 0x2029

/-- A carriage return directly before a line feed is dropped. -/
def joinReturns : List Char → List Char
  | '\r' :: '\n' :: rest => '\n' :: joinReturns rest
  | c :: rest => c :: joinReturns rest
  | [] => []

/-- The lines of a text, without their boundaries; a boundary at the very end opens no line. -/
def splitLines (s : List Char) : List (List Char) :=
  (joinReturns s).foldr
    (fun c lines =>
      if isLineBoundary c then [] :: lines
      else match lines with
        | [] => [[c]]
        | line :: more => (c :: line) :: more)
    []

/-- Every carriage return, alone or before a line feed, becomes a line feed. -/
def unifyNewlines (s : List Char) : List Char :=
  (joinReturns s).map fun c => if c = '\r' then '\n' else c

/-- Whether a text contains a part. -/
def hasPart (part : List Char) : List Char → Bool
  | [] => part.isEmpty
  | c :: rest => part.isPrefixOf (c :: rest) || hasPart part rest

/-- `splitOn` on strings. -/
def fieldsOf (sep : Char) (s : String) : List String :=
  (splitOn sep s.toList).map String.ofList

@[simp] theorem splitOn_nil (sep : Char) : splitOn sep [] = [[]] := rfl

theorem splitOn_cons_self (sep : Char) (s : List Char) :
    splitOn sep (sep :: s) = [] :: splitOn sep s := by
  simp [splitOn]

/-- A cut text has one part at least. -/
theorem splitOn_ne_nil (sep : Char) (s : List Char) : splitOn sep s ≠ [] := by
  cases s with
  | nil => simp
  | cons c r =>
    simp only [splitOn, List.foldr_cons]
    split
    · simp
    · split <;> simp

/-- No field is lost or changed: the fields joined with the separator are the text. -/
theorem joinWith_splitOn (sep : Char) (s : List Char) : joinWith [sep] (splitOn sep s) = s := by
  induction s with
  | nil => rfl
  | cons c r ih =>
    rcases hr : splitOn sep r with _ | ⟨f, fs⟩
    · exact absurd hr (splitOn_ne_nil sep r)
    · rw [hr] at ih
      by_cases h : c = sep
      · subst h
        rw [splitOn_cons_self, hr]
        simp [joinWith, ih]
      · have hc : splitOn sep (c :: r) = (c :: f) :: fs := by
          have : splitOn sep (c :: r) =
              (if c = sep then [] :: splitOn sep r
                else match splitOn sep r with
                  | [] => [[c]]
                  | field :: more => (c :: field) :: more) := rfl
          rw [this, if_neg h, hr]
        rw [hc]
        cases fs with
        | nil => simpa [joinWith] using ih
        | cons g gs => simpa [joinWith] using ih

end DesignTokens.Text
