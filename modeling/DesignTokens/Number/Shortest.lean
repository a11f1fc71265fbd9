import DesignTokens.Number.Binary64

/-!
# Shortest decimal text of a number

The text of a finite number has the fewest significant digits that read back as the number, and
of those decimals the nearest to it. For each count of digits the two neighbours of the number on
that decimal grid are tested against the interval of reals that round to it; the ends of the
interval belong to it when the mantissa is even.
-/

namespace DesignTokens.Binary64

/-- How many decimal digits a positive number has. -/
def digitCount (n : Nat) : Nat :=
  (Nat.toDigits 10 n).length

/-- The `k` with `10^(k-1) ≤ num / den < 10^k`. -/
def decimalExponent (num den : Nat) : Int :=
  if den ≤ num then digitCount (num / den)
  else 1 - (digitCount ((den + num - 1) / num - 1) : Int)

/-- The neighbours of `mantissa · 2^exponent` among the multiples of `10^unit` that round to the
number; the nearer of two, and the even one of two equally near. -/
def onGrid? (mantissa : Nat) (exponent unit : Int) : Option Nat :=
  let below := if mantissa = powTwo 52 ∧ leastExponent < exponent then 1 else 2
  let decimalScale := powTen unit.toNat * scaleUp (2 - exponent)
  let binaryScale := scaleUp (exponent - 2) * powTen (-unit).toNat
  let value := 4 * mantissa * binaryScale
  let low := (4 * mantissa - below) * binaryScale
  let high := (4 * mantissa + 2) * binaryScale
  let inside (d : Nat) : Bool :=
    let x := d * decimalScale
    if mantissa % 2 = 0 then low ≤ x && x ≤ high else low < x && x < high
  let d := value / decimalScale
  match inside d, inside (d + 1) with
  | true, true =>
    let down := value - d * decimalScale
    let up := (d + 1) * decimalScale - value
    if down < up ∨ (down = up ∧ d % 2 = 0) then some d else some (d + 1)
  | true, false => some d
  | false, true => some (d + 1)
  | false, false => none

/-- The shortest digits of a positive number, without trailing zeros, and the place of the point
counted from their beginning. -/
def shortest (mantissa : Nat) (exponent : Int) : List Char × Int :=
  let p := ratio mantissa exponent
  let k := decimalExponent p.1 p.2
  let found := (List.range 17).findSome? fun i =>
    let unit := k - (i + 1 : Nat)
    (onGrid? mantissa exponent unit).map fun d => (d, unit)
  match found with
  | none => (['0'], 1)
  | some (d, unit) =>
    let digits := Nat.toDigits 10 d
    ((digits.reverse.dropWhile (· = '0')).reverse, unit + digits.length)

/-- Digits with a point: positional when the point stands at most three zeros before and at most
sixteen places after the first digit, else with a power of ten of at least two digits. -/
def layout (digits : List Char) (point : Int) : List Char :=
  if -4 < point ∧ point ≤ 16 then
    if point ≤ 0 then '0' :: '.' :: (List.replicate (-point).toNat '0' ++ digits)
    else if (digits.length : Int) ≤ point then
      digits ++ List.replicate (point.toNat - digits.length) '0' ++ ['.', '0']
    else digits.take point.toNat ++ '.' :: digits.drop point.toNat
  else
    let e := point - 1
    let fraction := match digits.tail with
      | [] => []
      | rest => '.' :: rest
    let magnitude := Nat.toDigits 10 e.natAbs
    digits.take 1 ++ fraction ++ ['e', if e < 0 then '-' else '+'] ++
      (if magnitude.length < 2 then '0' :: magnitude else magnitude)

/-- The text of a finite number. -/
def finiteText (negative : Bool) (mantissa : Nat) (exponent : Int) : List Char :=
  let digits :=
    if mantissa = 0 then ['0', '.', '0']
    else let s := shortest mantissa exponent; layout s.1 s.2
  if negative then '-' :: digits else digits

end DesignTokens.Binary64
