import DesignTokens.Token.Definition

/-!
# The dictionary of known tokens

A table of definitions by name. A name is looked up as it is written, then with the sigil of
stylesheet variables added or removed, then among the aliases. Definitions are added and changed
but never removed.
-/

namespace DesignTokens

/-- Definitions under their names, in the order in which they were added. -/
structure Dictionary where
  entries : List (Spelling × Definition)
  deriving Repr, Inhabited, BEq

namespace Dictionary

/-- The character before the name of a stylesheet variable. -/
def sigil : Char := '$'

/-- A name with the sigil before it. -/
def withSigil (name : Spelling) : Spelling :=
  if name.start.toList.head? = some sigil then name
  else { name with start := String.ofList (sigil :: name.start.toList) }

/-- A name without one sigil before it. -/
def withoutSigil (name : Spelling) : Spelling :=
  match name.start.toList with
  | c :: rest => if c = sigil then { name with start := String.ofList rest } else name
  | [] => name

/-- The definitions that every dictionary begins with. -/
def builtin : List Definition :=
  [ .basic "$cds-black" "raw" "color" "Base Colors" "Primary black color",
    .basic "$cds-white" "raw" "color" "Base Colors" "Primary white color",
    .basic "$cds-red" "raw" "color" "Brand Colors" "Canon brand red",
    .basic "$cds-blue" "raw" "color" "Brand Colors" "Canon brand blue",
    .basic "$cds-ochre" "raw" "color" "Brand Colors" "Canon ochre accent color",
    .basic "$cds-blue-100" "raw" "color" "Blue Scale" "Light blue tint",
    .basic "$cds-blue-200" "raw" "color" "Blue Scale" "Medium blue tint",
    .basic "$cds-grey-100" "raw" "color" "Grey Scale" "Lightest grey",
    .basic "$cds-grey-200" "raw" "color" "Grey Scale" "Light grey",
    .basic "$cds-grey-300" "raw" "color" "Grey Scale" "Medium light grey",
    .basic "$cds-grey-400" "raw" "color" "Grey Scale" "Medium grey",
    .basic "$cds-grey-500" "raw" "color" "Grey Scale" "Medium dark grey",
    .basic "$cds-grey-600" "raw" "color" "Grey Scale" "Dark grey",
    .basic "$cds-grey-700" "raw" "color" "Grey Scale" "Darker grey",
    .basic "$cds-border-color-blue" "foundation" "color" "Border Colors" "Blue border color",
    .basic "$cds-border-color-blue-light" "foundation" "color" "Border Colors"
      "Light blue border color",
    .basic "$cds-border-color-red" "foundation" "color" "Border Colors" "Red border color",
    .basic "$cds-border-color-black" "foundation" "color" "Border Colors" "Black border color",
    .basic "$cds-border-color-white" "foundation" "color" "Border Colors" "White border color",
    .basic "$cds-border-color-grey-darkest" "foundation" "color" "Border Colors"
      "Darkest grey border color",
    .basic "$cds-border-color-grey-darker" "foundation" "color" "Border Colors"
      "Darker grey border color",
    .basic "$cds-border-color-grey-dark" "foundation" "color" "Border Colors"
      "Dark grey border color",
    .basic "$cds-border-color-grey" "foundation" "color" "Border Colors" "Grey border color",
    .basic "$cds-border-color-grey-light" "foundation" "color" "Border Colors"
      "Light grey border color",
    .basic "$cds-border-color-grey-lighter" "foundation" "color" "Border Colors"
      "Lighter grey border color",
    .basic "$cds-border-color-grey-lightest" "foundation" "color" "Border Colors"
      "Lightest grey border color",
    .basic "$cds-border-color-ochre" "foundation" "color" "Border Colors" "Ochre border color",
    .basic "$cds-bg-color-blue" "foundation" "color" "Background Colors" "Blue background color",
    .basic "$cds-bg-color-blue-light" "foundation" "color" "Background Colors"
      "Light blue background color",
    .basic "space-4" "foundation" "spacing" "Base Spacing" "4px spacing unit",
    .basic "space-8" "foundation" "spacing" "Base Spacing" "8px spacing unit",
    .basic "space-12" "foundation" "spacing" "Base Spacing" "12px spacing unit",
    .basic "space-16" "foundation" "spacing" "Base Spacing" "16px spacing unit",
    .basic "space-20" "foundation" "spacing" "Base Spacing" "20px spacing unit",
    .basic "space-24" "foundation" "spacing" "Base Spacing" "24px spacing unit",
    .basic "space-32" "foundation" "spacing" "Base Spacing" "32px spacing unit",
    .basic "@include theme" "foundation" "theme" "Theme Mixins"
      "Core theming mixin for applying theme tokens",
    .basic "@include media-breakpoint-up" "foundation" "layout" "Responsive Mixins"
      "Bootstrap responsive breakpoint mixin",
    .basic "@include media-breakpoint-down" "foundation" "layout" "Responsive Mixins"
      "Bootstrap responsive breakpoint mixin",
    .basic "@include media-breakpoint-between" "foundation" "layout" "Responsive Mixins"
      "Bootstrap responsive breakpoint mixin",
    .basic "@include make-container" "foundation" "layout" "Layout Mixins"
      "Bootstrap container mixin" ]

/-- The dictionary with the built-in definitions only. -/
def standard : Dictionary :=
  ⟨builtin.filterMap fun d => d.name.spelling?.map fun name => (name, d)⟩

/-- The number of definitions. -/
def size (d : Dictionary) : Nat := d.entries.length

/-- The definition stored under a name exactly. -/
def get? (d : Dictionary) (name : Spelling) : Option Definition :=
  d.entries.lookup name

/-- The first definition with a name among its aliases. -/
def aliased (name : Spelling) :
    List (Spelling × Definition) → Except Failure (Option Definition)
  | [] => .ok none
  | e :: rest => do
    if ← e.2.hasAlias name then .ok (some e.2) else aliased name rest

/-- The definition that a name refers to. -/
def find (d : Dictionary) (name : Spelling) : Except Failure (Option Definition) :=
  match d.get? name with
  | some found => .ok (some found)
  | none => match d.get? (withSigil name) with
    | some found => .ok (some found)
    | none => match d.get? (withoutSigil name) with
      | some found => .ok (some found)
      | none => aliased name d.entries

/-- Whether a name refers to a definition. -/
def knows (d : Dictionary) (name : Spelling) : Except Failure Bool :=
  (d.find name).map Option.isSome

/-- Adds a definition unless its name is known already, with or without the sigil or as an alias;
tells whether it was added. A name must be a text. -/
def add (d : Dictionary) (definition : Definition) : Except Failure (Bool × Dictionary) :=
  match definition.name with
  | .text name => do
    if ← d.knows name then .ok (false, d)
    else .ok (true, ⟨d.entries ++ [(name, definition)]⟩)
  | name => if name.isKey then .error (.noMember name.kindName "startswith") else .error .wrongKind

/-- The standard dictionary with definitions added in order. -/
def ofDefinitions (definitions : List Definition) : Except Failure Dictionary :=
  definitions.foldlM (fun d definition => (d.add definition).map (·.2)) standard

/-- Changes fields of a definition in order, up to the first name that is refused. -/
def change (definition : Definition) : Members → Definition × Except Failure Bool
  | [] => (definition, .ok true)
  | (field, value) :: rest =>
    match definition.give field value with
    | .ok changed => change changed rest
    | .error e => (definition, .error e)

/-- Replaces the definition stored under a name. -/
def replace (name : Spelling) (definition : Definition) :
    List (Spelling × Definition) → List (Spelling × Definition)
  | [] => []
  | e :: rest =>
    if e.1 = name then (e.1, definition) :: rest else e :: replace name definition rest

/-- Changes fields of the definition stored under a name exactly; the answer is `false` if there is
none. The changes before a bad field stay made. -/
def update (d : Dictionary) (name : Spelling) (changes : Members) :
    Dictionary × Except Failure Bool :=
  match d.get? name with
  | none => (d, .ok false)
  | some definition =>
    let (changed, answer) := change definition changes
    (⟨replace name changed d.entries⟩, answer)

/-- The definitions of a tier, of those that do not lack theirs. -/
def ofTier (d : Dictionary) (tier : Value) : List Definition :=
  (d.entries.map (·.2)).filter fun e => !e.lacks "tier" && e.tier.equals tier

/-- The definitions of a type, of those that do not lack theirs. -/
def ofType (d : Dictionary) (type : Value) : List Definition :=
  (d.entries.map (·.2)).filter fun e => !e.lacks "type" && e.type.equals type

end Dictionary

end DesignTokens
