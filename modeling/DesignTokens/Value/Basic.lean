import DesignTokens.Number.Binary64
import DesignTokens.Text.Spelling

/-!
# Values of the configuration

The values that a configuration file may hold: those of JSON, with whole numbers of any size,
floating-point numbers, texts as a document spells them, and objects whose members keep the order
in which they were written. Settings are used as they stand, so a value answers for its truth, its
kind and its equality, as a whole and as a key.
-/

namespace DesignTokens

/-- A value of the configuration. -/
inductive Value
  | null
  | bool (b : Bool)
  | int (n : Int)
  | real (x : Binary64)
  | text (s : Spelling)
  | list (items : List Value)
  | object (members : List (Spelling × Value))
  deriving Repr, Inhabited, BEq

/-- The members of an object, in order; no key occurs twice in one that was read. -/
abbrev Members := List (Spelling × Value)

namespace Members

/-- The value of a key. -/
def get? (m : Members) (key : Spelling) : Option Value :=
  List.lookup key m

/-- The value of a key, or the default. -/
def getD (m : Members) (key : Spelling) (default : Value) : Value :=
  (m.get? key).getD default

/-- Sets a key: a known key keeps its place, a new one comes last. -/
def set (m : Members) (key : Spelling) (value : Value) : Members :=
  match m with
  | [] => [(key, value)]
  | (k, v) :: rest => if k = key then (k, value) :: rest else (k, v) :: set rest key value

/-- Under a key stands the value of the first member with it. -/
theorem get?_cons (k : Spelling) (v : Value) (rest : Members) (key : Spelling) :
    get? ((k, v) :: rest) key = if key = k then some v else get? rest key := by
  simp only [get?, List.lookup_cons]
  by_cases h : key = k
  · simp [h]
  · rw [if_neg h, beq_eq_false_iff_ne.2 h]

/-- Under a key that is set stands the value. -/
theorem get?_set_self (m : Members) (key : Spelling) (value : Value) :
    (m.set key value).get? key = some value := by
  induction m with
  | nil => simp [set, get?_cons]
  | cons p rest ih =>
    obtain ⟨k, v⟩ := p
    by_cases h : k = key
    · simp [set, h, get?_cons]
    · rw [set, if_neg h, get?_cons, if_neg (Ne.symm h), ih]

/-- Under another key than the one that is set stands what stood there. -/
theorem get?_set_of_ne (m : Members) {key other : Spelling} (value : Value) (h : other ≠ key) :
    (m.set key value).get? other = m.get? other := by
  induction m with
  | nil => simp [set, h, get?]
  | cons p rest ih =>
    obtain ⟨k, v⟩ := p
    by_cases hk : k = key
    · rw [set, if_pos hk, get?_cons, get?_cons, hk, if_neg h, if_neg h]
    · rw [set, if_neg hk, get?_cons, get?_cons, ih]

end Members

namespace Value

/-- Whether a value counts as given: null, false, zero and everything empty do not. -/
def isGiven : Value → Bool
  | null => false
  | bool b => b
  | int n => n != 0
  | real x => !x.isZero
  | text s => !s.isEmpty
  | list items => !items.isEmpty
  | object members => !members.isEmpty

/-- The first value if it is given, else the second. -/
def orElse (v w : Value) : Value :=
  if v.isGiven then v else w

/-- The name of the kind of a value, as messages show it. -/
def kindName : Value → String
  | null => "NoneType"
  | bool _ => "bool"
  | int _ => "int"
  | real _ => "float"
  | text _ => "str"
  | list _ => "list"
  | object _ => "dict"

/-- Whether a value can be a key of a table; lists and objects cannot. -/
def isKey : Value → Bool
  | list _ | object _ => false
  | _ => true

mutual

/-- How many lists and objects a value has inside one another; empty ones have nothing inside. -/
def depth : Value → Nat
  | list items => depthOfItems items
  | object members => depthOfMembers members
  | _ => 0

/-- The depth of a list with these items. -/
def depthOfItems : List Value → Nat
  | [] => 0
  | v :: rest => max (depth v + 1) (depthOfItems rest)

/-- The depth of an object with these members. -/
def depthOfMembers : List (Spelling × Value) → Nat
  | [] => 0
  | m :: rest => max (depth m.2 + 1) (depthOfMembers rest)

end

/-- The whole number that a key stands for; truth values stand for one and zero. -/
def asInt? : Value → Option Int
  | bool b => some (if b then 1 else 0)
  | int n => some n
  | _ => none

/-- Whether two values are the same key: numbers are compared by value, whatever their kind, and
not a number is the same key as itself. -/
def sameKey (v w : Value) : Bool :=
  match v, w with
  | null, null => true
  | text s, text t => s == t
  | real x, real y => x.same y
  | real x, w => match w.asInt? with
    | some n => x.isInt n
    | none => false
  | v, real y => match v.asInt? with
    | some n => y.isInt n
    | none => false
  | v, w => match v.asInt?, w.asInt? with
    | some n, some k => n == k
    | _, _ => false

mutual

/-- Whether two values have the same content: keys as `sameKey` says, lists item by item, objects
by the values of their keys in any order. -/
def sameContent : Value → Value → Bool
  | list items, list others => sameItems items others
  | object members, object others =>
    members.length == others.length && sameMembers members others
  | v, w => v.sameKey w

/-- Whether two lists have the same items in the same order. -/
def sameItems : List Value → List Value → Bool
  | [], [] => true
  | v :: rest, w :: others => sameContent v w && sameItems rest others
  | _, _ => false

/-- Whether each key has the same value among other members. -/
def sameMembers : List (Spelling × Value) → Members → Bool
  | [], _ => true
  | (k, v) :: rest, others =>
    (match others.get? k with
      | some w => sameContent v w
      | none => false) && sameMembers rest others

end

/-- Whether a value is not a number. -/
def isNotANumber : Value → Bool
  | real .nan => true
  | _ => false

/-- Whether two values are equal: they have the same content and are not both not a number, which
is equal to itself only as a part of other values. -/
def equals (v w : Value) : Bool :=
  !v.isNotANumber && v.sameContent w

/-- Whether a value is the given text. -/
def isText (s : Spelling) : Value → Bool
  | text t => t == s
  | _ => false

/-- The text that a value is, if it is one. -/
def spelling? : Value → Option Spelling
  | text s => some s
  | _ => none

/-- The text that a value is, if it is one without halves of pairs. -/
def text? (v : Value) : Option String := v.spelling?.bind Spelling.plain?

/-- A list of texts. -/
def texts (items : List String) : Value :=
  list (items.map fun (s : String) => text s)

/-- A text, or null if there is none. -/
def ofText? : Option String → Value
  | some s => text s
  | none => null

end Value

end DesignTokens
