import DesignTokens.Pattern

/-!
# Token definitions in a line

A line of source text may define a token: as a stylesheet variable, as a custom property, or as a
member of a JSON object with a text for its value. The three forms are tried in this order.
-/

namespace DesignTokens

open Pattern

/-- A token and the value that a line gives it. -/
structure TokenLine where
  name : String
  value : String
  deriving DecidableEq, Repr

namespace TokenLine

/-- A name that begins with a sigil and a value up to a semicolon, with a colon between them. -/
def assignment (sigil : String) : Pattern :=
  all
    [ lit sigil, group 1 (many1 (· != ':')), lit ":", blanks, group 2 (many1 (· != ';')),
      lit ";" ]

/-- A quoted name and a quoted value with a colon between them. -/
def quotedPair : Pattern :=
  all
    [ lit "\"", group 1 (many1 (· != '"')), lit "\":", blanks, lit "\"",
      group 2 (many1 (· != '"')), lit "\"" ]

/-- The forms of a definition, each with the text that its names begin with. -/
def forms : List (Pattern × String) :=
  [(assignment "$", "$"), (assignment "--", "--"), (quotedPair, "")]

/-- The definition that a match of a form states; white space around name and value is dropped. -/
def ofMatch (sigil : String) (m : Pattern.Match) : TokenLine :=
  ⟨sigil ++ String.ofList (Text.trim (m.capture 1)), String.ofList (Text.trim (m.capture 2))⟩

/-- The definition in a line, by the first form that occurs in it. -/
def find (line : List Char) : Option TokenLine :=
  forms.findSome? fun f => (f.1.search line).map (ofMatch f.2)

end TokenLine

end DesignTokens
