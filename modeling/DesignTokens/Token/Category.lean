import DesignTokens.Pattern
import DesignTokens.Token.Dictionary
import DesignTokens.Token.Tally

/-!
# Categories of tokens

Each token gets a level of the design system and a label. A token of the dictionary gets those of
its definition; any other token is judged by the first rule that applies to its name and the path
of the file that refers to it.
-/

namespace DesignTokens

open Pattern

/-- The level and the label of a token. -/
structure Category where
  tier : Value
  label : String
  purpose : Value
  subcategory : Value
  deriving Repr, Inhabited, BEq

namespace Category

/-- A category given by texts. -/
def of (tier label purpose : String) (subcategory : Option String) : Category :=
  ⟨.text tier, label, .text purpose, .ofText? subcategory⟩

/-- The fields of a category as an object. -/
def toValue (c : Category) : Value :=
  .object
    [ ("tier", c.tier), ("category", .text c.label), ("purpose", c.purpose),
      ("subcategory", c.subcategory) ]

/-- The labels of the types of definitions. -/
def typeLabels : List (String × String) :=
  [ ("color", "Colors"), ("spacing", "Spacing"), ("typography", "Typography"), ("size", "Sizing"),
    ("border", "Borders"), ("shadow", "Shadows"), ("animation", "Animation"), ("layout", "Layout"),
    ("theme", "Theme System") ]

/-- The label of a type; a list or an object is no type. -/
def labelOfType (type : Value) : Except Failure String :=
  if !type.isKey then .error .wrongKind
  else match type with
    | .text s => .ok ((typeLabels.lookup s.shown).getD "Other")
    | _ => .ok "Other"

/-- The category of a token with a definition. -/
def ofDefinition (d : Definition) : Except Failure Category := do
  d.require "tier"
  d.require "type"
  let label ← labelOfType d.type
  .ok
    { tier := d.tier
      label := label
      purpose := d.description.orElse (.text (d.type.spelled.append " token"))
      subcategory := d.subcategory }

end Category

/-- A path with slashes only; a missing path is empty. -/
def slashed (path : Option String) : List Char :=
  match path with
  | none => []
  | some p => p.toList.map fun c => if c = '\\' then '/' else c

/-- Whether a text contains a word. -/
def mentions (s : List Char) (word : String) : Bool :=
  Text.hasPart word.toList s

/-- The stylesheet of a component: its name is the group. -/
def componentFile : Pattern :=
  all [lit "components/", opt (lit "_"), group 1 (many1 (· != '/')), lit ".scss", atEnd]

/-- The component whose stylesheet has this path, with a capital letter. -/
def componentName (path : Option String) : Option String :=
  match componentFile.search (slashed path) with
  | none => none
  | some m =>
    match m.capture 1 with
    | [] => some ""
    | c :: rest => some (String.ofList (Text.upperChar c ++ rest))

/-- A rule that judges tokens by name and path. -/
structure CategoryRule where
  name : String
  applies : (token : List Char) → (path : Option String) → Bool
  classify : (token : List Char) → (path : Option String) → Category

namespace CategoryRule

/-- A rule on names that gives one category. -/
def onName (name : String) (applies : List Char → Bool) (category : Category) : CategoryRule :=
  ⟨name, fun token _ => applies token, fun _ _ => category⟩

/-- A literal color: black, white or a shade of gray with the sigil, or plain white. -/
def baseColor : Pattern :=
  seq
    (alt
      (seq (lit "$")
        (anyOf [lit "black", lit "white", seq (lit "gray-") (many1 Text.isDigit)]))
      (lit "white"))
    atEnd

/-- A color of the theme with the sigil. -/
def themeColor : Pattern :=
  seq (lit "$")
    (words ["primary", "secondary", "success", "danger", "warning", "info", "light", "dark"])

/-- A spacing given by a number. -/
def rawSpacing : Pattern :=
  seq
    (alt (seq (lit "space-") (many1 Text.isDigit)) (many1 fun c => '0' ≤ c && c ≤ '9'))
    atEnd

/-- A font weight: a digit other than zero and two zeros. -/
def fontWeight : Pattern :=
  all [one fun c => '1' ≤ c && c ≤ '9', lit "00", atEnd]

/-- A size name. -/
def rawSize : Pattern :=
  seq (words ["xs", "sm", "md", "lg", "xl", "xxl"]) atEnd

/-- The beginning of a name of the design system. -/
def systemName : Pattern :=
  seq (opt (lit "$")) (lit "cds-")

/-- Paths of the files that lay the foundation. -/
def foundationPaths : List Pattern :=
  [ lit "foundation/", lit "theme/", lit "core/", seq (lit "_tokens.scss") atEnd,
    seq (lit "_themeMixins.scss") atEnd ]

/-- Whether a path is one of a file that lays the foundation. -/
def isFoundationPath (path : Option String) : Bool :=
  let p := slashed path
  !p.isEmpty && foundationPaths.any fun pattern => pattern.occursIn p

/-- The category of a name of the design system. -/
def classifySystemName (token : List Char) : Category :=
  if ["color", "white", "black", "red"].any fun word => mentions token word then
    .of "foundation" "Colors" "Canon Design System color tokens" (some "CDS Colors")
  else if mentions token "space" then
    .of "foundation" "Spacing" "Canon Design System spacing tokens" (some "CDS Spacing")
  else
    .of "foundation" "Design System" "Canon Design System foundation tokens" (some "CDS Tokens")

/-- The category of a token in a file that lays the foundation. -/
def classifyFoundationPath (path : Option String) : Category :=
  let p := slashed path
  if mentions p "foundation/spacing" then
    .of "foundation" "Spacing" "Foundation spacing scale" (some "Spacing System")
  else if mentions p "core/typography" then
    .of "foundation" "Typography" "Foundation typography scale and utilities"
      (some "Typography System")
  else .of "foundation" "Design System" "Foundation design system tokens" none

/-- The category of a token in the file of a component. -/
def classifyComponentFile (path : Option String) : Category :=
  let named := match componentName path with
    | some "" => none
    | name => name
  .of "component" "Components"
    ("Component-specific styling for " ++ named.getD "UI components")
    (some (named.getD "Generic Component"))

/-- The category of a token that no rule singles out. -/
def remaining : Category :=
  .of "component" "Components" "Component-level styling tokens" none

/-- The rules in the order in which they are tried. -/
def standard : List CategoryRule :=
  [ onName "raw-base-color" baseColor.begins
      (.of "raw" "Colors" "Basic color values for the design system" (some "Base Colors")),
    onName "raw-theme-color" themeColor.begins
      (.of "raw" "Colors" "Semantic color values for UI states" (some "Theme Colors")),
    onName "raw-spacing" rawSpacing.begins
      (.of "raw" "Spacing" "Raw spacing values in pixels or rem units" none),
    onName "raw-font-weight" fontWeight.begins
      (.of "raw" "Typography" "Font weight values" (some "Font Weight")),
    onName "raw-size" rawSize.begins (.of "raw" "General" "Raw design values" none),
    ⟨"foundation-cds", fun token _ => systemName.begins token,
      fun token _ => classifySystemName token⟩,
    onName "foundation-theme-mixin" (lit "@include theme").begins
      (.of "foundation" "Theme" "Theme switching and theming functionality"
        (some "Theme Mixins")),
    onName "foundation-typography-mixin" (lit "@include font-size-line-height").begins
      (.of "foundation" "Typography" "Font sizing and line height utilities"
        (some "Typography Mixins")),
    onName "foundation-breakpoint-mixin" (lit "@include media-breakpoint-").begins
      (.of "foundation" "Layout" "Responsive breakpoint utilities" (some "Responsive Mixins")),
    ⟨"foundation-path", fun _ path => isFoundationPath path,
      fun _ path => classifyFoundationPath path⟩,
    ⟨"component-file", fun _ path => mentions (slashed path) "components/",
      fun _ path => classifyComponentFile path⟩,
    ⟨"component-utilities", fun _ path => mentions (slashed path) "_utils",
      fun _ _ => .of "component" "Utilities" "Utility classes and helper styles"
        (some "Utility Classes")⟩,
    ⟨"component-default", fun _ _ => true, fun _ _ => remaining⟩ ]

end CategoryRule

/-- A dictionary and the rules for the tokens it does not know. -/
structure Categorizer where
  dictionary : Dictionary
  rules : List CategoryRule

namespace Categorizer

/-- The first rule that applies to a token in a file. -/
def ruleFor (c : Categorizer) (token : String) (path : Option String) : Option CategoryRule :=
  c.rules.find? fun rule => rule.applies token.toList path

/-- The category of a token in a file. -/
def categorize (c : Categorizer) (token : String) (path : Option String) :
    Except Failure Category := do
  match ← c.dictionary.find token with
  | some definition => Category.ofDefinition definition
  | none =>
    match c.ruleFor token path with
    | some rule => .ok (rule.classify token.toList path)
    | none => .ok CategoryRule.remaining

/-- The name of the rule that decides the category of a token, or `none` if the dictionary or no
rule does. -/
def decidingRule (c : Categorizer) (token : String) (path : Option String) :
    Except Failure (Option String) := do
  if ← c.dictionary.knows token then .ok none
  else .ok ((c.ruleFor token path).map (·.name))

end Categorizer

end DesignTokens
