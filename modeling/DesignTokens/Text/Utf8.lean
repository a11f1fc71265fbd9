import DesignTokens.Text.Quoted

/-!
# Strict UTF-8

A decoder that reads byte by byte and stops at the first sequence that is not well formed:
overlong forms, surrogates and code points above U+10FFFF have no form. A fault names the bytes
of the longest well-formed beginning of the offending sequence.
-/

namespace DesignTokens.Text.Utf8

/-- Why a byte sequence has no meaning. -/
inductive Reason
  /-- No character begins with this byte. -/
  | startByte
  /-- The byte after those named cannot continue the character. -/
  | continuationByte
  /-- The text ends within a character. -/
  | endOfData
  deriving DecidableEq, Repr

/-- The first place where decoding fails. -/
structure Fault where
  /-- Index of the first offending byte. -/
  position : Nat
  /-- How many bytes the fault names, at least one. -/
  count : Nat
  /-- The first offending byte. -/
  lead : UInt8
  reason : Reason
  deriving DecidableEq, Repr

/-- A character of which some bytes have been read. -/
structure Pending where
  lead : UInt8
  /-- Bytes read so far. -/
  seen : Nat
  /-- Bytes still to come, at least one. -/
  missing : Nat
  /-- The least value the next byte may have. -/
  low : Nat
  /-- The greatest value the next byte may have. -/
  high : Nat
  /-- The bits read so far. -/
  bits : Nat
  deriving DecidableEq, Repr

/-- What a byte begins: a character of its own, or one of several bytes. -/
def start (b : UInt8) : Option (Char ⊕ Pending) :=
  let n := b.toNat
  if n < 0x80 then some (.inl (Char.ofNat n))
  else if 0xC2 ≤ n && n ≤ 0xDF then some (.inr ⟨b, 1, 1, 0x80, 0xBF, n - 0xC0⟩)
  else if 0xE0 ≤ n && n ≤ 0xEF then
    some (.inr ⟨b, 1, 2, if n = 0xE0 then 0xA0 else 0x80, if n = 0xED then 0x9F else 0xBF,
      n - 0xE0⟩)
  else if 0xF0 ≤ n && n ≤ 0xF4 then
    some (.inr ⟨b, 1, 3, if n = 0xF0 then 0x90 else 0x80, if n = 0xF4 then 0x8F else 0xBF,
      n - 0xF0⟩)
  else none

/-- Decodes the bytes from index `position` on; `done` holds the characters before them in
reverse, and the character under way, if any, began at `position`. -/
def decodeFrom (position : Nat) (under : Option Pending) (done : List Char) :
    List UInt8 → Except Fault (List Char)
  | [] =>
    match under with
    | none => .ok done.reverse
    | some p => .error ⟨position, p.seen, p.lead, .endOfData⟩
  | b :: rest =>
    match under with
    | none =>
      match start b with
      | none => .error ⟨position, 1, b, .startByte⟩
      | some (.inl c) => decodeFrom (position + 1) none (c :: done) rest
      | some (.inr p) => decodeFrom position (some p) done rest
    | some p =>
      if p.low ≤ b.toNat && b.toNat ≤ p.high then
        let bits := p.bits * 64 + (b.toNat - 0x80)
        if p.missing = 1 then
          decodeFrom (position + p.seen + 1) none (Char.ofNat bits :: done) rest
        else
          decodeFrom position (some ⟨p.lead, p.seen + 1, p.missing - 1, 0x80, 0xBF, bits⟩) done rest
      else .error ⟨position, p.seen, p.lead, .continuationByte⟩

/-- The text that the bytes encode. -/
def decode (bytes : List UInt8) : Except Fault (List Char) :=
  decodeFrom 0 none [] bytes

/-- The bytes of one character. -/
def encodeChar (c : Char) : List UInt8 :=
  let n := c.toNat
  if n < 0x80 then [n.toUInt8]
  else if n < 0x800 then [(0xC0 + n / 64).toUInt8, (0x80 + n % 64).toUInt8]
  else if n < 0x10000 then
    [(0xE0 + n / 4096).toUInt8, (0x80 + n / 64 % 64).toUInt8, (0x80 + n % 64).toUInt8]
  else
    [(0xF0 + n / 262144).toUInt8, (0x80 + n / 4096 % 64).toUInt8, (0x80 + n / 64 % 64).toUInt8,
      (0x80 + n % 64).toUInt8]

/-- The bytes of a text. -/
def encode (s : List Char) : List UInt8 :=
  s.flatMap encodeChar

/-- The wording of a reason. -/
def Reason.message : Reason → String
  | .startByte => "invalid start byte"
  | .continuationByte => "invalid continuation byte"
  | .endOfData => "unexpected end of data"

/-- The wording of a fault: one byte is named by value and place, several by their places. -/
def Fault.message (f : Fault) : String :=
  let place :=
    if f.count = 1 then
      "byte 0x" ++ String.ofList (hex 2 f.lead.toNat) ++ " in position " ++ toString f.position
    else
      "bytes in position " ++ toString f.position ++ "-" ++ toString (f.position + f.count - 1)
  "'utf-8' codec can't decode " ++ place ++ ": " ++ f.reason.message

end DesignTokens.Text.Utf8
