import DesignTokens.Files.PathText
import DesignTokens.Pattern

/-!
# Token formats

A format says how a design token is referenced in one kind of source file: a pattern whose first
group is the name of the token, and the file extensions in which it is looked for. The formats
come in two sets, selected by name.
-/

namespace DesignTokens

open Pattern

/-- How tokens are referenced in some kind of file. -/
structure TokenFormat where
  name : String
  pattern : Pattern
  /-- Extensions in lower case, with their point. -/
  extensions : List String
  description : String

namespace TokenFormat

/-- Whether files with this path are searched. -/
def appliesTo (f : TokenFormat) (path : String) : Bool :=
  f.extensions.contains (Text.lowerString (PathText.extension path))

/-- A character of a name in a stylesheet. -/
def isNameChar (c : Char) : Bool :=
  isAlphanumeric c || c == '_' || c == '-'

/-- A character of a dotted name. -/
def isDottedChar (c : Char) : Bool :=
  isNameChar c || c == '.'

/-- The characters that end an attribute value. -/
def isUnquoted (c : Char) : Bool := c != '"' && c != '\''

/-- The beginning of a list of classes: a class attribute with its quote, or an apply rule. -/
def classOpening : Pattern :=
  alt
    (all [lit "class", opt (lit "Name"), lit "=", one (within "\"'")])
    (all [lit "@apply", many1 Text.isBlank])

/-- A reference to a member of the theme inside an interpolation. -/
def themeReference (path : String) : Pattern :=
  all
    [ lit "$\x7b",
      opt (all [lit "props", blanks, lit "=>", blanks]),
      opt (lit "props."),
      lit path,
      group 1 (many1 (· != '\x7d')),
      lit "\x7d" ]

/-- Text without quotes that contains one of the words. -/
def unquotedWith (ws : List String) : Pattern :=
  all [many isUnquoted, words ws, many isUnquoted]

/-- Digits at the end of a name, perhaps after a dash and perhaps absent. -/
def scaleDigits : Pattern :=
  seq (opt (lit "-")) (opt (group 1 (many1 Text.isDigit)))

/-- The formats for stylesheets and scripts in general. -/
def general : List TokenFormat :=
  [ { name := "css-variables"
      pattern := all [lit "var(--", group 1 (many1 (· != ')')), lit ")"]
      extensions := [".css", ".scss", ".less", ".styl"]
      description := "CSS Custom Properties (CSS Variables)" },
    { name := "scss-variables"
      pattern := seq (lit "$") (group 1 (many1 isNameChar))
      extensions := [".scss", ".sass"]
      description := "SCSS/Sass Variables" },
    { name := "js-tokens"
      pattern := seq (lit "tokens.") (group 1 (many1 isDottedChar))
      extensions := [".js", ".jsx", ".ts", ".tsx", ".vue"]
      description := "JavaScript Token Objects" },
    { name := "tailwind-classes"
      pattern := seq classOpening (group 1 (unquotedWith
        ["text-", "bg-", "border-", "space-", "p-", "m-", "w-", "h-", "rounded-"]))
      extensions := [".html", ".jsx", ".tsx", ".vue", ".svelte"]
      description := "Tailwind CSS Classes" },
    { name := "styled-components"
      pattern := themeReference "theme."
      extensions := [".js", ".jsx", ".ts", ".tsx"]
      description := "Styled Components Theme References" },
    { name := "design-tokens"
      pattern := all
        [ lit "\"",
          group 1 (all [many (· != '"'), lit ".token", many (· != '"')]),
          lit "\"" ]
      extensions := [".json", ".js", ".ts"]
      description := "Design Token Files" } ]

/-- The formats for the Canon design system. -/
def canon : List TokenFormat :=
  [ { name := "canon-cds-variables"
      pattern := seq (lit "$cds-")
        (group 1 (seq (many1 isNameChar) (opt (seq (lit "-") (many1 Text.isDigit)))))
      extensions := [".scss", ".sass"]
      description := "Canon Design System Variables ($cds-*)" },
    { name := "canon-bootstrap-variables"
      pattern := all
        [ lit "$",
          words ["gray", "white", "black", "primary", "secondary", "success", "info", "warning",
            "danger"],
          scaleDigits ]
      extensions := [".scss", ".sass"]
      description := "Canon Bootstrap Variables" },
    { name := "canon-color-variables"
      pattern := all
        [ lit "$", opt (lit "cds-"),
          words ["red", "blue", "green", "yellow", "purple", "orange", "gray", "black", "white"],
          scaleDigits ]
      extensions := [".scss", ".sass"]
      description := "Canon Color Variables" },
    { name := "canon-scss-mixins"
      pattern := all
        [ lit "@", words ["include", "mixin"], many1 Text.isBlank,
          opt (group 1 (words ["cds-", "canon-"])),
          group 2 (many1 isNameChar) ]
      extensions := [".scss", ".sass"]
      description := "Canon SCSS Mixins and Functions" },
    { name := "canon-scss-maps"
      pattern := all
        [ lit "map-", words ["get", "merge"], lit "($",
          group 1 (many1 (without ",)")),
          opt (lit ","), blanks, opt (one (within "'\"")),
          group 2 (many (without "'\",)")),
          opt (one (within "'\"")), opt (lit ")") ]
      extensions := [".scss", ".sass"]
      description := "Canon SCSS Map References" },
    { name := "canon-js-tokens"
      pattern := all
        [ words ["canonTokens", "canonTheme", "designTokens"], lit ".",
          group 1 (many1 isDottedChar) ]
      extensions := [".js", ".jsx", ".ts", ".tsx", ".vue"]
      description := "Canon JavaScript Token Objects" },
    { name := "canon-styled-theme"
      pattern := themeReference "theme.canon."
      extensions := [".js", ".jsx", ".ts", ".tsx"]
      description := "Canon Styled Components Theme References" },
    { name := "canon-tailwind-classes"
      pattern := seq classOpening (group 1 (unquotedWith ["canon-", "cds-"]))
      extensions := [".html", ".jsx", ".tsx", ".vue", ".svelte"]
      description := "Canon Tailwind CSS Classes" },
    { name := "canon-token-files"
      pattern := all
        [ lit "\"",
          group 1 (all [many (· != '"'), words ["canon", "token"], many (· != '"')]),
          lit "\"" ]
      extensions := [".json"]
      description := "Canon Design Token JSON Files" },
    { name := "canon-component-props"
      pattern := all
        [ words ["color", "theme", "variant", "size"], lit "=", one (within "\"'"),
          group 1 (unquotedWith ["canon-", "primary-", "secondary-"]),
          one (within "\"'") ]
      extensions := [".jsx", ".tsx"]
      description := "Canon Component Theme Props" } ]

/-- The sets of formats by name, in alphabetical order. -/
def presets : List (String × List TokenFormat) :=
  [("canon", canon), ("default", general)]

/-- The set of formats with a name, in upper or lower case. -/
def preset? (name : String) : Option (List TokenFormat) :=
  presets.lookup (Text.lowerString name)

/-- The extensions that some format searches, each once. -/
def extensionsOf (formats : List TokenFormat) : List String :=
  (formats.flatMap extensions).eraseDups

end TokenFormat

end DesignTokens
