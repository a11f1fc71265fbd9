import DesignTokens.Pattern
import DesignTokens.Text.Lines

/-!
# Files that define tokens

Which files of a repository define tokens, judged by their paths, and what kind of tokens a path
suggests.
-/

namespace DesignTokens

open Pattern

namespace TokenFile

/-- The extensions of stylesheets, data and scripts. -/
def sources : Pattern :=
  anyOf [litFold "scss", litFold "css", litFold "json", litFold "js", litFold "ts"]

/-- The extensions of stylesheets. -/
def stylesheets : Pattern := anyOf [litFold "scss", litFold "css"]

/-- A text, perhaps something after it, and an extension at the end of the path. -/
def named (name : Pattern) (extensions : Pattern) : Pattern :=
  all [name, lit ".", extensions, atEnd]

/-- A word, perhaps in the plural. -/
def plural (word : String) : Pattern := seq (litFold word) (opt (litFold "s"))

/-- A word and anything after it on the same line. -/
def beginning (word : String) : Pattern := seq (litFold word) (many (· != '\n'))

/-- The names of files that define tokens. -/
def patterns : List Pattern :=
  [ named (plural "token") sources, named (plural "_token") sources,
    named (plural "design-token") sources, named (plural "variable") sources,
    named (plural "_variable") sources, named (litFold "theme") sources,
    named (beginning "foundation") stylesheets, named (plural "color") sources,
    named (litFold "typography") sources, named (litFold "spacing") sources,
    named (beginning "size") sources ]

/-- Whether the file with a path defines tokens. -/
def isTokenFile (path : String) : Bool :=
  patterns.any fun p => p.occursIn path.toList

/-- The words in a path that suggest a kind of tokens, in the order in which they are looked
for. -/
def hints : List (List String × String) :=
  [ (["color"], "colors"), (["typography", "font"], "typography"),
    (["spacing", "space"], "spacing"), (["size", "sizing"], "sizing"),
    (["breakpoint", "media"], "breakpoints"), (["shadow", "elevation"], "shadows"),
    (["border", "radius"], "borders"), (["animation", "transition"], "animation"),
    (["foundation"], "foundation"), (["component"], "component") ]

/-- The kind of tokens that a path suggests. -/
def category (path : String) : String :=
  let p := Text.lower path.toList
  match hints.find? fun h => h.1.any fun word => Text.hasPart word.toList p with
  | some h => h.2
  | none => "misc"

end TokenFile

end DesignTokens
