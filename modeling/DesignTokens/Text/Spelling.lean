/-!
# Spelled text

A document may spell a text by code units of sixteen bits. Two units may be the halves of a pair,
which are one character together; a half without its other half is no character at all, yet the
text has it. A spelling is such a text: characters, and between them the halves that stand alone.
A text without them is its own spelling.
-/

namespace DesignTokens

/-- A half of a pair, counted from U+D800. -/
abbrev Half := Fin 0x800

namespace Half

/-- The code unit of a half. -/
def unit (h : Half) : Nat := 0xD800 + h.val

/-- The half with a code unit, if the unit is one. -/
def ofUnit? (n : Nat) : Option Half :=
  if 0xD800 ≤ n && n < 0xE000 then some (Fin.ofNat 0x800 (n - 0xD800)) else none

/-- What is shown in place of a half: the replacement character. -/
def shown : Char := Char.ofNat 0xFFFD

end Half

/-- A text that may have halves of pairs in it. -/
structure Spelling where
  /-- The characters before the first half. -/
  start : String
  /-- The halves, each with the characters after it. -/
  more : List (Half × String)
  deriving DecidableEq, Repr, Inhabited

namespace Spelling

/-- A text without halves. -/
def ofString (s : String) : Spelling := ⟨s, []⟩

instance : Coe String Spelling := ⟨ofString⟩

/-- A spelling after characters and a half. -/
def before (s : String) (h : Half) (after : Spelling) : Spelling :=
  ⟨s, (h, after.start) :: after.more⟩

/-- Whether there is nothing in a spelling. -/
def isEmpty (s : Spelling) : Bool :=
  s.start.isEmpty && s.more.isEmpty

/-- The text of a spelling without halves. -/
def plain? (s : Spelling) : Option String :=
  match s.more with
  | [] => some s.start
  | _ :: _ => none

/-- Writes each character and each half in a way of its own. -/
def write (char : Char → List Char) (half : Half → List Char) (s : Spelling) : List Char :=
  s.start.toList.flatMap char ++
    s.more.flatMap fun p => half p.1 ++ p.2.toList.flatMap char

/-- A spelling as a text, with a character in place of each half. -/
def filled (c : Char) (s : Spelling) : String :=
  match s.more with
  | [] => s.start
  | _ :: _ => String.ofList (s.write (fun d => [d]) fun _ => [c])

/-- A spelling as a text, with replacement characters for its halves. -/
def shown (s : Spelling) : String := s.filled Half.shown

/-- A spelling with a text after it. -/
def append (s : Spelling) (t : String) : Spelling :=
  match s.more.getLast? with
  | none => ⟨s.start ++ t, []⟩
  | some last => ⟨s.start, s.more.dropLast ++ [(last.1, last.2 ++ t)]⟩

/-- The characters and the halves one by one, each as a spelling. -/
def singles (s : Spelling) : List Spelling :=
  let chars (t : String) : List Spelling := t.toList.map fun c => ofString (String.singleton c)
  chars s.start ++ s.more.flatMap fun p => ⟨"", [(p.1, "")]⟩ :: chars p.2

/-- A spelling with every run of characters changed. -/
def mapRuns (f : String → String) (s : Spelling) : Spelling :=
  ⟨f s.start, s.more.map fun p => (p.1, f p.2)⟩

@[simp] theorem shown_ofString (s : String) : (ofString s).shown = s := rfl

/-- Halves that stand side by side in a text. -/
structure Halves where
  /-- The index of the first one. -/
  position : Nat
  /-- The first one. -/
  first : Half
  /-- How many there are, at least one. -/
  count : Nat
  deriving DecidableEq, Repr

/-- How many halves there are before the next character. -/
def sideBySide : List (Half × String) → Nat
  | [] => 0
  | (_, s) :: rest => if s.isEmpty then sideBySide rest + 1 else 1

/-- The first halves of a spelling that has any. -/
def halves? (s : Spelling) : Option Halves :=
  match s.more with
  | [] => none
  | (h, _) :: _ => some ⟨s.start.length, h, sideBySide s.more⟩

end Spelling

end DesignTokens
