import DesignTokens.Nesting
import DesignTokens.Text.Integer
import DesignTokens.Value.Basic

/-!
# Reading JSON

A reader of JSON documents that also takes `NaN`, `Infinity` and `-Infinity` for numbers and lets
the last of several equal keys win. A fault gives the place where the reader stopped: a missing
value is reported where it should begin, an unterminated text at its opening quote. A half of a
pair that stands alone in a text stays one. Lists and objects are nested up to a limit.
-/

namespace DesignTokens

namespace Value

/-- What the reader found missing or wrong. -/
inductive Complaint
  | value
  | propertyName
  | colon
  | comma
  | unterminated
  | controlCharacter
  | escape
  | unicodeEscape
  | extraData
  | byteOrderMark
  deriving DecidableEq, Repr

/-- Why a document has no value. -/
inductive ParseFault
  /-- The document is not well formed at an index. -/
  | malformed (complaint : Complaint) (position : Nat)
  /-- A whole number in it has more digits than the limit. -/
  | tooLong (digits : Nat)
  /-- Its lists and objects are nested too deeply; the innermost of them is named. -/
  | tooDeep (innermost : Nesting)
  deriving DecidableEq, Repr

/-- The rest of a document and its index. -/
structure Place where
  position : Nat
  rest : List Char
  deriving DecidableEq, Repr

/-- The place `n` characters further on. -/
def Place.advance (p : Place) (n : Nat) : Place :=
  ⟨p.position + n, p.rest.drop n⟩

/-- A fault at a place. -/
def Place.refuse {α : Type} (p : Place) (complaint : Complaint) :
    Except ParseFault (α × Place) :=
  .error (.malformed complaint p.position)

/-- Space, tab, carriage return and line feed separate the parts of a document. -/
def isSpacing (c : Char) : Bool :=
  c = ' ' || c = '\t' || c = '\r' || c = '\n'

/-- The place after the spacing. -/
def Place.skip (p : Place) : Place :=
  p.advance (p.rest.takeWhile isSpacing).length

/-- The value of a hexadecimal digit. -/
def hexValue? (c : Char) : Option Nat :=
  let n := c.toNat
  if 48 ≤ n ∧ n ≤ 57 then some (n - 48)
  else if 97 ≤ n ∧ n ≤ 102 then some (n - 87)
  else if 65 ≤ n ∧ n ≤ 70 then some (n - 55)
  else none

/-- The sixteen-bit unit that four hexadecimal digits spell. -/
def unit? (digits : List Char) : Option Nat :=
  if digits.length = 4 then
    digits.foldl (fun n c => match n, hexValue? c with
      | some n, some d => some (16 * n + d)
      | _, _ => none) (some 0)
  else none

/-- The character that a letter after a backslash stands for. -/
def shortEscape? (c : Char) : Option Char :=
  match c with
  | '"' => some '"'
  | '\\' => some '\\'
  | '/' => some '/'
  | 'b' => some (Char.ofNat 8)
  | 'f' => some (Char.ofNat 12)
  | 'n' => some '\n'
  | 'r' => some '\r'
  | 't' => some '\t'
  | _ => none

/-- Whether a unit is the first half of a pair. -/
def isHighHalf (n : Nat) : Bool := 0xD800 ≤ n && n < 0xDC00

/-- Whether a unit is the second half of a pair. -/
def isLowHalf (n : Nat) : Bool := 0xDC00 ≤ n && n < 0xE000

/-- What a unit on its own stands for: a character or a half of a pair. -/
def ofUnit (n : Nat) : Char ⊕ Half :=
  match Half.ofUnit? n with
  | some h => .inr h
  | none => .inl (Char.ofNat n)

/-- The character or the half of a pair that an escape of the form `uXXXX` at a place stands for,
with the number of characters it takes. Two escapes for the halves of a pair are one character. -/
def unicodeEscape (p : Place) : Except ParseFault ((Char ⊕ Half) × Nat) :=
  match unit? ((p.rest.drop 1).take 4) with
  | none => .error (.malformed .unicodeEscape p.position)
  | some high =>
    if (p.rest.take 6).length < 6 then .error (.malformed .unicodeEscape p.position)
    else if isHighHalf high && (p.rest.take 12).length = 12 &&
        (p.rest.drop 5).take 2 = ['\\', 'u'] then
      match unit? ((p.rest.drop 7).take 4) with
      | none => .error (.malformed .unicodeEscape (p.position + 6))
      | some low =>
        if isLowHalf low then
          .ok (.inl (Char.ofNat (0x10000 + (high - 0xD800) * 0x400 + (low - 0xDC00))), 11)
        else .ok (ofUnit high, 5)
    else .ok (ofUnit high, 5)

/-- What has been read of a text, in reverse. -/
structure Reading where
  /-- The runs of characters that a half of a pair ends, with that half. -/
  ended : List (String × Half)
  /-- The characters after them. -/
  run : List Char

/-- What has been read after one more character or half. -/
def Reading.push (r : Reading) : Char ⊕ Half → Reading
  | .inl c => { r with run := c :: r.run }
  | .inr h => ⟨(String.ofList r.run.reverse, h) :: r.ended, []⟩

/-- The text that has been read. -/
def Reading.close (r : Reading) : Spelling :=
  r.ended.foldl (fun after e => .before e.1 e.2 after) (.ofString (String.ofList r.run.reverse))

/-- The text up to its closing quote; `opening` is the index of its opening quote, and `done` what
has been read of it. -/
def textFrom (opening : Nat) : Nat → Place → Reading → Except ParseFault (Spelling × Place)
  | 0, _, _ => .error (.malformed .unterminated opening)
  | fuel + 1, p, done =>
    match p.rest with
    | [] => .error (.malformed .unterminated opening)
    | '"' :: _ => .ok (done.close, p.advance 1)
    | '\\' :: [] => .error (.malformed .unterminated opening)
    | '\\' :: 'u' :: _ => do
      let (c, taken) ← unicodeEscape (p.advance 1)
      textFrom opening fuel (p.advance (1 + taken)) (done.push c)
    | '\\' :: c :: _ =>
      match shortEscape? c with
      | some e => textFrom opening fuel (p.advance 2) (done.push (.inl e))
      | none => .error (.malformed .escape p.position)
    | c :: _ =>
      if c.toNat < 0x20 then .error (.malformed .controlCharacter p.position)
      else textFrom opening fuel (p.advance 1) (done.push (.inl c))

/-- The text that begins with the quote at a place. -/
def readText (p : Place) : Except ParseFault (Spelling × Place) :=
  textFrom p.position (p.rest.length + 1) (p.advance 1) ⟨[], []⟩

/-- An ASCII digit. -/
def isDecimal (c : Char) : Bool := '0' ≤ c && c ≤ '9'

/-- The number that ASCII digits spell. -/
def decimalValue (digits : List Char) : Nat :=
  Text.ofDigits (digits.map fun c => c.toNat - 48)

/-- The digits before the point: a zero, or digits that begin with another one. -/
def wholeDigits : List Char → List Char
  | '0' :: _ => ['0']
  | s => s.takeWhile isDecimal

/-- The digits after a point, if a point with a digit after it follows. -/
def fractionDigits : List Char → Option (List Char)
  | '.' :: s =>
    match s.takeWhile isDecimal with
    | [] => none
    | digits => some digits
  | _ => none

/-- The sign and the digits of an exponent, if one follows, with the number of characters. -/
def exponentDigits : List Char → Option (Bool × List Char × Nat)
  | [] => none
  | e :: s =>
    if e = 'e' || e = 'E' then
      let (negative, body, signed) := match s with
        | '-' :: r => (true, r, 1)
        | '+' :: r => (false, r, 1)
        | r => (false, r, 0)
      match body.takeWhile isDecimal with
      | [] => none
      | digits => some (negative, digits, 1 + signed + digits.length)
    else none

/-- The number at a place. -/
def readNumber (p : Place) : Except ParseFault (Value × Place) :=
  let (negative, body, signed) := match p.rest with
    | '-' :: r => (true, r, 1)
    | r => (false, r, 0)
  match wholeDigits body with
  | [] => p.refuse .value
  | whole =>
    let afterWhole := body.drop whole.length
    let fraction := fractionDigits afterWhole
    let fractionLength := match fraction with
      | some digits => digits.length + 1
      | none => 0
    let exponent := exponentDigits (afterWhole.drop fractionLength)
    match fraction, exponent with
    | none, none =>
      if Text.Integer.digitLimit < whole.length then .error (.tooLong whole.length)
      else
        let n := decimalValue whole
        .ok (.int (if negative then -(n : Int) else n), p.advance (signed + whole.length))
    | _, _ =>
      let fractionPart := fraction.getD []
      let digits := (whole ++ fractionPart).dropWhile (· = '0')
      let (power, exponentLength) : Int × Nat := match exponent with
        | some (down, ds, length) =>
          let n : Int := decimalValue ds
          (if down then -n else n, length)
        | none => (0, 0)
      .ok (.real (Binary64.ofDecimal negative (decimalValue digits) digits.length
          (power - fractionPart.length)),
        p.advance (signed + whole.length + fractionLength + exponentLength))

/-- The words that stand for values. -/
def wordValues : List (String × Value) :=
  [("null", .null), ("true", .bool true), ("false", .bool false), ("NaN", .real .nan),
   ("Infinity", .real (.infinite false)), ("-Infinity", .real (.infinite true))]

/-- The word or the number at a place. -/
def readScalar (p : Place) : Except ParseFault (Value × Place) :=
  match wordValues.find? fun w => w.1.toList.isPrefixOf p.rest with
  | some w => .ok (w.2, p.advance w.1.length)
  | none => readNumber p

mutual

/-- The value at a place, with at most `depth` lists and objects inside one another. -/
def readValue : Nat → Nat → Place → Except ParseFault (Value × Place)
  | 0, _, p => p.refuse .value
  | fuel + 1, depth, p =>
    match p.rest with
    | [] => p.refuse .value
    | '"' :: _ => do
      let (s, q) ← readText p
      .ok (.text s, q)
    | '\x7b' :: _ =>
      if depth = 0 then .error (.tooDeep .objects)
      else
        let q := (p.advance 1).skip
        match q.rest with
        | '\x7d' :: _ => .ok (.object [], q.advance 1)
        | _ => readMembers fuel (depth - 1) q []
    | '[' :: _ =>
      if depth = 0 then .error (.tooDeep .lists)
      else
        let q := (p.advance 1).skip
        match q.rest with
        | ']' :: _ => .ok (.list [], q.advance 1)
        | _ => readItems fuel (depth - 1) q []
    | _ => readScalar p

/-- The members of an object from a key on, up to the closing brace. -/
def readMembers : Nat → Nat → Place → Members → Except ParseFault (Value × Place)
  | 0, _, p, _ => p.refuse .value
  | fuel + 1, depth, p, done =>
    match p.rest with
    | '"' :: _ => do
      let (key, q) ← readText p
      let q := q.skip
      match q.rest with
      | ':' :: _ => do
        let (v, q) ← readValue fuel depth (q.advance 1).skip
        let q := q.skip
        let done := Members.set done key v
        match q.rest with
        | '\x7d' :: _ => .ok (.object done, q.advance 1)
        | ',' :: _ => readMembers fuel depth (q.advance 1).skip done
        | _ => q.refuse .comma
      | _ => q.refuse .colon
    | _ => p.refuse .propertyName

/-- The items of a list from a value on, up to the closing bracket; `done` holds the items before
them in reverse. -/
def readItems : Nat → Nat → Place → List Value → Except ParseFault (Value × Place)
  | 0, _, p, _ => p.refuse .value
  | fuel + 1, depth, p, done => do
    let (v, q) ← readValue fuel depth p
    let q := q.skip
    match q.rest with
    | ']' :: _ => .ok (.list (v :: done).reverse, q.advance 1)
    | ',' :: _ => readItems fuel depth (q.advance 1).skip (v :: done)
    | _ => q.refuse .comma

end

/-- The value of a document. Each level of nesting takes at least one character, so twice the
length bounds the depth of the recursion. -/
def parse [Nesting.Room] (s : List Char) : Except ParseFault Value :=
  if s.head? = some (Char.ofNat 0xFEFF) then .error (.malformed .byteOrderMark 0)
  else do
    let (v, q) ← readValue (2 * s.length + 2) Nesting.Site.settings.limit (Place.skip ⟨0, s⟩)
    let q := q.skip
    if q.rest.isEmpty then .ok v else .error (.malformed .extraData q.position)

/-- The wording of a complaint. -/
def Complaint.message : Complaint → String
  | .value => "Expecting value"
  | .propertyName => "Expecting property name enclosed in double quotes"
  | .colon => "Expecting ':' delimiter"
  | .comma => "Expecting ',' delimiter"
  | .unterminated => "Unterminated string starting at"
  | .controlCharacter => "Invalid control character at"
  | .escape => "Invalid \\escape"
  | .unicodeEscape => "Invalid \\uXXXX escape"
  | .extraData => "Extra data"
  | .byteOrderMark => "Unexpected UTF-8 BOM (decode using utf-8-sig)"

/-- Line and column, counted from one, of an index in a text. -/
def lineAndColumn (s : List Char) (position : Nat) : Nat × Nat :=
  let before := s.take position
  (before.count '\n' + 1, (before.reverse.takeWhile (· ≠ '\n')).length + 1)

/-- The wording of a complaint about an index in a text. -/
def Complaint.located (c : Complaint) (s : List Char) (position : Nat) : String :=
  let place := lineAndColumn s position
  c.message ++ ": line " ++ toString place.1 ++ " column " ++ toString place.2 ++
    " (char " ++ toString position ++ ")"

end Value

end DesignTokens
