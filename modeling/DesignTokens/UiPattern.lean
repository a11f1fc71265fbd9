import DesignTokens.Token.Usage

/-!
# Structural patterns of a user interface

Buttons, cards, dialogs, forms and navigation are recognised by fixed signatures in source text.
How complex a pattern is belongs to its signature and not to the number of its uses.
-/

namespace DesignTokens

open Pattern

/-- How complex a structural pattern is. -/
inductive Complexity
  | simple
  | medium
  | complex
  deriving DecidableEq, Repr, Inhabited

namespace Complexity

/-- The word for a complexity. -/
def word : Complexity → String
  | simple => "simple"
  | medium => "medium"
  | complex => "complex"

/-- The complexity for a word. -/
def ofWord? (s : String) : Option Complexity :=
  [simple, medium, complex].find? fun c => c.word == s

end Complexity

/-- A structural pattern and how it is recognised. -/
structure Signature where
  name : String
  pattern : Pattern
  complexity : Complexity

namespace Signature

/-- The word "class" and later on the same line a word, without regard to case. -/
def classWith (word : String) : Pattern :=
  all [litFold "class", many (· != '\n'), litFold word]

/-- A class with a word, an element with a name, or a third form. -/
def form (word element other : String) : Pattern :=
  anyOf [classWith word, litFold element, litFold other]

/-- The signatures that are looked for. -/
def standard : List Signature :=
  [ ⟨"Button", form "button" "<button" "btn-", .simple⟩,
    ⟨"Card", form "card" "<card" ".card", .medium⟩,
    ⟨"Modal", form "modal" "<modal" ".modal", .complex⟩,
    ⟨"Form", form "form" "<form" ".form", .medium⟩,
    ⟨"Navigation", form "nav" "<nav" ".nav", .complex⟩ ]

end Signature

/-- How often and where a structural pattern is used. -/
structure UiPattern where
  name : String
  count : Int
  locations : List String
  complexity : Complexity
  dependencies : List String
  deriving DecidableEq, Repr, Inhabited

namespace UiPattern

/-- The structural patterns in a file, one for each signature that matches. -/
def detect (content path : String) : List UiPattern :=
  Signature.standard.filterMap fun s =>
    match (s.pattern.findAll content.toList).length with
    | 0 => none
    | n => some ⟨s.name, n, [path], s.complexity, []⟩

/-- One result for several of the same pattern; complexity and dependencies are those of the
first. -/
def merge (name : String) (group : List UiPattern) : UiPattern :=
  { name := name
    count := sumOf (group.map (·.count))
    locations := (group.flatMap (·.locations)).eraseDups
    complexity := (group.head?.map (·.complexity)).getD .simple
    dependencies := (group.head?.map (·.dependencies)).getD [] }

/-- One result for each pattern, most used first; equally used ones keep the order in which they
were first seen. -/
def aggregate (found : List UiPattern) : List UiPattern :=
  sortByCount count ((groupByKey name found).map fun g => merge g.1 g.2)

/-- The fields of a result as an object. -/
def toValue (p : UiPattern) : Value :=
  .object
    [ ("pattern_name", .text p.name), ("usage_count", .int p.count),
      ("locations", .texts p.locations), ("complexity", .text p.complexity.word),
      ("token_dependencies", .texts p.dependencies) ]

end UiPattern

end DesignTokens
