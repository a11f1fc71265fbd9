import DesignTokens.Number.Shortest
import DesignTokens.Text.Quoted
import DesignTokens.Value.Basic

/-!
# Values in messages

How a message shows a value: texts quoted, lists in brackets, objects in braces, floating-point
numbers with their shortest digits. A text on its own is shown as it stands.
-/

namespace DesignTokens

/-- A floating-point number in a message. -/
def Binary64.display : Binary64 → List Char
  | .finite negative m e => finiteText negative m e
  | .infinite negative => (if negative then "-inf" else "inf").toList
  | .nan => "nan".toList

namespace Value

mutual

/-- A value within another value or between words of a message. -/
def quoted : Value → List Char
  | null => "None".toList
  | bool b => (if b then "True" else "False").toList
  | int n => (toString n).toList
  | real x => x.display
  | text s => Text.quoteSpelling s
  | list items => '[' :: (quotedItems items ++ [']'])
  | object members => '\x7b' :: (quotedMembers members ++ ['\x7d'])

/-- The items of a list with commas between them. -/
def quotedItems : List Value → List Char
  | [] => []
  | [v] => quoted v
  | v :: rest => quoted v ++ (", ".toList ++ quotedItems rest)

/-- The members of an object with commas between them. -/
def quotedMembers : List (Spelling × Value) → List Char
  | [] => []
  | [(k, v)] => Text.quoteSpelling k ++ (": ".toList ++ quoted v)
  | (k, v) :: rest =>
    Text.quoteSpelling k ++ (": ".toList ++ (quoted v ++ (", ".toList ++ quotedMembers rest)))

end

/-- A value on its own: a text as it stands, any other value as within a message. -/
def spelled : Value → Spelling
  | text s => s
  | v => String.ofList (quoted v)

/-- A value on its own as characters. -/
def display (v : Value) : List Char := v.spelled.shown.toList

/-- `quoted` as a string. -/
def quotedString (v : Value) : String := String.ofList v.quoted

/-- `display` as a string. -/
def displayString (v : Value) : String := v.spelled.shown

end Value

end DesignTokens
