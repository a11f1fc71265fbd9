import DesignTokens.Failure
import DesignTokens.Value.Printer

/-!
# Tallies

Totals by key, in the order in which the keys were first counted. Keys are values; lists and
objects cannot be keys.
-/

namespace DesignTokens

/-- The sum of whole numbers. -/
def sumOf (xs : List Int) : Int :=
  xs.foldr (· + ·) 0

@[simp] theorem sumOf_nil : sumOf [] = 0 := rfl

@[simp] theorem sumOf_cons (x : Int) (xs : List Int) : sumOf (x :: xs) = x + sumOf xs := rfl

/-- The sum of two lists is the sum of their sums. -/
theorem sumOf_append (xs ys : List Int) : sumOf (xs ++ ys) = sumOf xs + sumOf ys := by
  induction xs with
  | nil => simp
  | cons x xs ih => simp only [List.cons_append, sumOf_cons, ih]; omega

/-- Totals by key. -/
abbrev Tally := List (Value × Int)

namespace Tally

/-- Adds an amount to the total of a key. -/
def bump (key : Value) (amount : Int) : Tally → Tally
  | [] => [(key, amount)]
  | (k, total) :: rest =>
    if k.sameKey key then (k, total + amount) :: rest else (k, total) :: bump key amount rest

/-- Adds an amount to the total of a key, if it can be one. -/
def add (t : Tally) (key : Value) (amount : Int) : Except Failure Tally :=
  if key.isKey then .ok (bump key amount t) else .error .wrongKind

/-- The total of a key, zero if it was never counted. -/
def total (t : Tally) (key : Value) : Int :=
  match t.find? fun e => e.1.sameKey key with
  | some e => e.2
  | none => 0

/-- How often each of the keys occurs. -/
def count (keys : List Value) : Except Failure Tally :=
  keys.foldlM (fun t key => t.add key 1) []

/-- The sum of all totals. -/
def sum (t : Tally) : Int := sumOf (t.map (·.2))

/-- A tally that is bumped has a greater sum by that. -/
theorem sum_bump (key : Value) (amount : Int) (t : Tally) :
    sum (bump key amount t) = sum t + amount := by
  induction t with
  | nil => simp [bump, sum]
  | cons e rest ih =>
    obtain ⟨k, n⟩ := e
    simp only [bump]
    split
    · simp only [sum, List.map_cons, sumOf_cons]; omega
    · simp only [sum, List.map_cons, sumOf_cons] at ih ⊢; omega

/-- The text of a key where only texts can be keys. -/
def keyText : Value → Spelling
  | .text s => s
  | .null => "null"
  | .bool b => if b then "true" else "false"
  | .real x => String.ofList x.written
  | v => v.spelled

/-- The totals as an object. -/
def toValue (t : Tally) : Value :=
  .object (t.map fun e => (keyText e.1, .int e.2))

end Tally

/-- The levels of a design system, in display order. -/
def tierNames : List String := ["raw", "foundation", "component"]

namespace Tally

/-- A zero for each level. -/
def tiers : Tally := tierNames.map fun (tier : String) => (.text tier, 0)

end Tally

end DesignTokens
