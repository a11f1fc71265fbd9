/-!
# Binary floating-point numbers

Double-precision numbers as exact data: a finite number is a sign, a mantissa below 2⁵³ and a
power of two. Every operation works on the exact value and rounds once, to the nearest number and
to the even mantissa of two nearest, so it can be computed by proof as well as by machine.
-/

namespace DesignTokens

/-- A double-precision number; a finite one is `±mantissa · 2^exponent`. -/
inductive Binary64
  | finite (negative : Bool) (mantissa : Nat) (exponent : Int)
  | infinite (negative : Bool)
  | nan
  deriving DecidableEq, Repr

/-- A power of two. -/
def powTwo (n : Nat) : Nat := Nat.pow 2 n

/-- A power of ten. -/
def powTen (n : Nat) : Nat := Nat.pow 10 n

/-- The whole number nearest to `num / den`; of two nearest the even one. -/
def roundDiv (num den : Nat) : Nat :=
  let q := num / den
  let r := num % den
  if den < 2 * r ∨ (2 * r = den ∧ q % 2 = 1) then q + 1 else q

namespace Binary64

/-- The least power of two that divides every number. -/
def leastExponent : Int := -1074

/-- The greatest exponent of a finite number. -/
def greatestExponent : Int := 971

/-- Two to a power that may be negative, as a factor of the numerator. -/
def scaleUp (e : Int) : Nat := powTwo e.toNat

/-- `num / den / 2^e` as a numerator and a denominator. -/
def divPow (num den : Nat) (e : Int) : Nat × Nat :=
  (num * scaleUp (-e), den * scaleUp e)

/-- The exponent that gives the quotient a mantissa of 53 bits, or the least one. -/
def exponentFor (num den : Nat) : Int :=
  let guess : Int := (num.log2 : Int) - den.log2 - 52
  let p := divPow num den guess
  max leastExponent (if p.1 / p.2 < powTwo 52 then guess - 1 else guess)

/-- The number nearest to `num / den`, with the given sign. -/
def ofRatio (negative : Bool) (num den : Nat) : Binary64 :=
  if num = 0 ∨ den = 0 then .finite negative 0 0
  else
    let e := exponentFor num den
    let p := divPow num den e
    let m := roundDiv p.1 p.2
    let n := if m = powTwo 53 then (powTwo 52, e + 1) else (m, e)
    if greatestExponent < n.2 then .infinite negative
    else if n.1 = 0 then .finite negative 0 0
    else .finite negative n.1 n.2

/-- The number nearest to a quotient of whole numbers. -/
def ofQuotient (num : Int) (den : Nat) : Binary64 :=
  ofRatio (num < 0) num.natAbs den

/-- The number nearest to `digits · 10^exponent`, where `count` is the number of digits without
zeros at the beginning. Magnitudes far outside the range of the numbers are decided without
computing the power. -/
def ofDecimal (negative : Bool) (digits count : Nat) (exponent : Int) : Binary64 :=
  if digits = 0 then .finite negative 0 0
  else if 400 < exponent + count then .infinite negative
  else if exponent + count < -400 then .finite negative 0 0
  else ofRatio negative (digits * powTen exponent.toNat) (powTen (-exponent).toNat)

/-- The magnitude of a finite number as a numerator and a denominator. -/
def ratio (mantissa : Nat) (exponent : Int) : Nat × Nat :=
  (mantissa * scaleUp exponent, scaleUp (-exponent))

/-- The whole number with the sign and magnitude given. -/
def signed (negative : Bool) (n : Nat) : Int :=
  if negative then -(n : Int) else n

/-- The whole part, or `none` if the number is not finite. -/
def truncate? : Binary64 → Option Int
  | .finite negative m e => let p := ratio m e; some (signed negative (p.1 / p.2))
  | _ => none

/-- The nearest whole number, of two nearest the even one, or `none` if the number is not
finite. -/
def round? : Binary64 → Option Int
  | .finite negative m e => let p := ratio m e; some (signed negative (roundDiv p.1 p.2))
  | _ => none

/-- The number nearest to the product with a whole number. -/
def scale (k : Nat) : Binary64 → Binary64
  | .finite negative m e => let p := ratio m e; ofRatio negative (k * p.1) p.2
  | x => x

/-- The number nearest to the decimal with `places` places that is nearest to the number; of two
such decimals the one with the even last digit. -/
def roundPlaces (places : Nat) : Binary64 → Binary64
  | .finite negative m e =>
    let p := ratio m e
    ofRatio negative (roundDiv (p.1 * powTen places) p.2) (powTen places)
  | x => x

/-- Zero of either sign. -/
def isZero : Binary64 → Bool
  | .finite _ m _ => m == 0
  | _ => false

/-- Whether two numbers have the same value; not a number has the same value as itself. -/
def same : Binary64 → Binary64 → Bool
  | .finite negative m e, .finite negative' m' e' =>
    let p := ratio m e
    let q := ratio m' e'
    signed negative p.1 * q.2 == signed negative' q.1 * p.2
  | x, y => x == y

/-- Whether the number is the whole number `n` exactly. -/
def isInt (n : Int) : Binary64 → Bool
  | .finite negative m e =>
    let p := ratio m e
    p.1 % p.2 == 0 && signed negative (p.1 / p.2) == n
  | _ => false

end Binary64

end DesignTokens
