import DesignTokens.Failure
import DesignTokens.Text.Lines

/-!
# Definitions of known tokens

What a dictionary says about a token. Definitions come from the configuration, so their fields
hold values of any kind; reading one fails only when the name is missing or the aliases are no
collection. A change may put an object in the place of all fields of a definition at once; then some
of them may be lacking.
-/

namespace DesignTokens

/-- What is known about a design token. -/
structure Definition where
  name : Value
  /-- The level of the design system the token belongs to. -/
  tier : Value
  /-- What the token describes: a color, a spacing, and so on. -/
  type : Value
  subcategory : Value
  description : Value
  /-- Other names of the token. -/
  aliases : Value
  deprecated : Value
  /-- The names in the object that took the place of the fields, if one did. -/
  names : Option (List Spelling) := none
  deriving Repr, Inhabited, BEq

/-- The items of a collection: those of a list, the characters of a text, the keys of an
object. -/
def Value.items? : Value → Option (List Value)
  | list items => some items
  | text s => some (s.singles.map text)
  | object members => some (members.map fun m => text m.1)
  | _ => none

/-- The items of a collection, or a failure. -/
def Value.items (v : Value) : Except Failure (List Value) :=
  match v.items? with
  | some items => .ok items
  | none => .error .wrongKind

namespace Definition

/-- A definition with a name, a tier, a type, a subcategory and a description. -/
def basic (name tier type subcategory description : String) : Definition :=
  { name := .text name
    tier := .text tier
    type := .text type
    subcategory := .text subcategory
    description := .text description
    aliases := .list []
    deprecated := .bool false }

/-- Reads a definition from the members of an object. Without a tier the category stands for it,
and without either the token is raw. -/
def ofMembers (m : Members) : Except Failure Definition := do
  let name ← match m.get? "name" with
    | some name => .ok name
    | none => .error (.noKey (.text "name"))
  let aliases ← (m.getD "aliases" (.list [])).items
  .ok
    { name := name
      tier := (m.getD "tier" .null).orElse (m.getD "category" (.text "raw"))
      type := m.getD "type" (.text "theme")
      subcategory := m.getD "subcategory" .null
      description := m.getD "description" .null
      aliases := .list aliases
      deprecated := .bool (m.getD "deprecated" (.bool false)).isGiven }

/-- Reads a definition from a value, which must be an object. -/
def ofValue : Value → Except Failure Definition
  | .object m => ofMembers m
  | _ => .error .wrongKind

/-- The definition with one field changed, or `none` if there is no such field. -/
def set? (d : Definition) (field : String) (value : Value) : Option Definition :=
  match field with
  | "name" => some { d with name := value }
  | "tier" => some { d with tier := value }
  | "type" => some { d with type := value }
  | "subcategory" => some { d with subcategory := value }
  | "description" => some { d with description := value }
  | "aliases" => some { d with aliases := value }
  | "deprecated" => some { d with deprecated := value }
  | _ => none

/-- Names that every definition answers to besides those of its fields. A value given to one of them
is kept beside the fields, where nothing reads it. -/
def otherNames : List String :=
  [ "from_dict", "__annotations__", "__dataclass_fields__", "__dataclass_params__", "__delattr__",
    "__dir__", "__doc__", "__eq__", "__format__", "__ge__", "__getattribute__", "__getstate__",
    "__gt__", "__hash__", "__init__", "__init_subclass__", "__le__", "__lt__", "__match_args__",
    "__module__", "__ne__", "__new__", "__reduce__", "__reduce_ex__", "__repr__", "__setattr__",
    "__sizeof__", "__str__", "__subclasshook__" ]

/-- Names that stand for what a definition is made of. -/
def structuralNames : List String := ["__class__", "__dict__", "__weakref__"]

/-- The fields that have a default, whatever took the place of the fields. -/
def defaultedFields : List String := ["subcategory", "description", "deprecated"]

/-- The definition with an object in the place of its fields. A field that is not in the object has
its default, or is lacking if it has none. -/
def ofFields (m : Members) : Definition :=
  { name := m.getD "name" .null
    tier := m.getD "tier" .null
    type := m.getD "type" .null
    subcategory := m.getD "subcategory" .null
    description := m.getD "description" .null
    aliases := m.getD "aliases" .null
    deprecated := m.getD "deprecated" (.bool false)
    names := some (m.map (·.1)) }

/-- Whether a field is lacking: an object without it took the place of the fields. -/
def lacks (d : Definition) (field : String) : Bool :=
  !defaultedFields.contains field && d.names.any fun names => !names.contains field

/-- Refuses a field that is lacking. -/
def require (d : Definition) (field : String) : Except Failure Unit :=
  if d.lacks field then .error (.noMember "TokenDefinition" field) else .ok ()

/-- No field is lacking as long as no object took the place of the fields. -/
theorem lacks_eq_false {d : Definition} (h : d.names = none) (field : String) :
    d.lacks field = false := by
  unfold lacks
  rw [h, Option.any_none, Bool.and_false]

/-- A field that is not lacking can be read. -/
theorem require_eq_ok {d : Definition} {field : String} (h : d.lacks field = false) :
    d.require field = .ok () := by
  unfold require
  rw [h, if_neg Bool.false_ne_true]

/-- Whether a definition answers to a name, so that a value of any kind can be given to it: a field
that is not lacking, another name in the object that took the place of the fields, or one to which
every definition answers. -/
def answersTo (d : Definition) (name : Spelling) : Bool :=
  match d.set? name.shown .null with
  | some _ => !d.lacks name.shown
  | none =>
    otherNames.contains name.shown ||
      (!structuralNames.contains name.shown && d.names.any fun names => names.contains name)

/-- Why a value cannot be given to a name: it stands for what a definition is made of, or for
nothing. -/
def refusal (name : String) : Failure :=
  match name with
  | "__class__" | "__dict__" => .wrongKind
  | "__weakref__" => .noMember "TokenDefinition" name
  | _ => .noField name

/-- The object that is put in the place of the fields where it is given to the name for all of
them. -/
def whole? (name : Spelling) : Value → Option Members
  | .object m => if name.shown = "__dict__" then some m else none
  | _ => none

/-- The definition with a value given to one of the names that it answers to, or with an object in
the place of its fields. -/
def give (d : Definition) (name : Spelling) (value : Value) : Except Failure Definition :=
  match whole? name value with
  | some m => .ok (ofFields m)
  | none =>
    if d.answersTo name then .ok ((d.set? name.shown value).getD d)
    else .error (refusal name.shown)

/-- Whether a name is among the aliases: an item of a list, a key of an object, a part of a text. A
value of another kind cannot be asked. -/
def hasAlias (d : Definition) (name : Spelling) : Except Failure Bool := do
  d.require "aliases"
  match d.aliases with
  | .list items => .ok (items.any (Value.isText name))
  | .object members => .ok (members.any fun m => m.1 == name)
  | .text s => .ok (Text.hasPart name.shown.toList s.shown.toList)
  | _ => .error .wrongKind

/-- All fields of a definition with their values. -/
def allFields (d : Definition) : Members :=
  [ ("name", d.name), ("tier", d.tier), ("type", d.type), ("subcategory", d.subcategory),
    ("description", d.description), ("aliases", d.aliases), ("deprecated", d.deprecated) ]

/-- The fields of a definition that are not lacking, with their values. -/
def fields (d : Definition) : Members := d.allFields.filter fun f => !d.lacks f.1.shown

/-- The fields of a definition as an object. -/
def toValue (d : Definition) : Value := .object d.fields

end Definition

end DesignTokens
