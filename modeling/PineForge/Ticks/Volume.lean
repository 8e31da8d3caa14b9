import PineForge.Machine.FloatArith

/-!
# Volumes of ticks

The volume of a bar that is built from ticks counts whole steps of a decimal grid as long as every
tick is a whole number of steps, and sums with a compensation otherwise. The count is turned into a
double by one division, or by a division bit by bit where it does not fit a double.
-/

namespace PineForge.Ticks

open FloatArith

/-- How an unsigned word takes the result of an operation. -/
abbrev Store := ℤ → Option ℕ

/-- The words of the machine wrap. -/
def wrapped : Store := fun n => some (n % 2 ^ 64).toNat

/-- Words that refuse what they cannot hold. -/
def checked : Store := fun n => if 0 ≤ n ∧ n < 2 ^ 64 then some n.toNat else none

/-- A sum of volumes. -/
structure TickVolume where
  units : ℤ
  sum : Float
  compensation : Float
  divisor : Float
  decimalPlaces : ℕ
  exact : Bool

namespace TickVolume

/-- A sum of nothing. -/
def new : TickVolume where
  units := 0
  sum := 0.0
  compensation := 0.0
  divisor := 1.0
  decimalPlaces := 0
  exact := false

/-- The loop of `reset`, with `fuel` places to try. -/
def resetFrom (step : Float) : ℕ → ℕ → Float → TickVolume
  | 0, _, _ => new
  | fuel + 1, places, scale =>
    if step == 1.0 / scale then
      { new with divisor := scale, decimalPlaces := places, exact := true }
    else resetFrom step fuel (places + 1) (scale * 10.0)

/-- Begin a sum on a grid. -/
def reset : Option Float → TickVolume
  | none => new
  | some step => resetFrom step 23 0 1.0

/-! ## Division bit by bit -/

/-- The power of five in the denominator. -/
def powerOfFive (store : Store) : ℕ → Option ℕ
  | 0 => some 1
  | places + 1 => do
    let denominator ← powerOfFive store places
    store (denominator * 5)

/-- `while (denominator <= numerator / 2)`: the denominator and the exponent. -/
def raise (store : Store) (numerator : ℕ) : ℕ → ℕ → ℤ → Option (ℕ × ℤ)
  | 0, _, _ => none
  | fuel + 1, denominator, exponent =>
    if denominator ≤ numerator / 2 then do
      let denominator ← store (denominator * 2)
      raise store numerator fuel denominator (exponent + 1)
    else some (denominator, exponent)

/-- `while (numerator < denominator)`: the numerator and the exponent. -/
def lower (store : Store) (denominator : ℕ) : ℕ → ℕ → ℤ → Option (ℕ × ℤ)
  | 0, _, _ => none
  | fuel + 1, numerator, exponent =>
    if numerator < denominator then do
      let numerator ← store (numerator * 2)
      lower store denominator fuel numerator (exponent - 1)
    else some (numerator, exponent)

/-- `bits` more bits of the quotient: the remainder and the significand. -/
def divide (store : Store) (denominator : ℕ) : ℕ → ℕ → ℕ → Option (ℕ × ℕ)
  | 0, remainder, significand => some (remainder, significand)
  | bits + 1, remainder, significand => do
    let remainder ← store (remainder * 2)
    let significand ← store (significand * 2)
    if denominator ≤ remainder then do
      let remainder ← store (remainder - denominator)
      let significand ← store (significand + 1)
      divide store denominator bits remainder significand
    else divide store denominator bits remainder significand

/-- The nearest significand, ties to even. -/
def roundSignificand (store : Store) (denominator remainder significand : ℕ) : Option ℕ := do
  let complement ← store (denominator - remainder)
  if complement < remainder ∨ remainder = complement ∧ significand % 2 = 1 then
    store (significand + 1)
  else some significand

/-- The division of a count that does not fit a double. Each loop has as many turns as a word has
bits. -/
def longDivision (store : Store) (decimalPlaces numerator : ℕ) : Option Float := do
  let power ← powerOfFive store decimalPlaces
  let raised ← raise store numerator 64 power (-decimalPlaces)
  let denominator := raised.1
  let lowered ← lower store denominator 64 numerator raised.2
  let remainder ← store (lowered.1 - denominator)
  let divided ← divide store denominator 52 remainder 1
  let significand ← roundSignificand store denominator divided.1 divided.2
  some (ldexp (fromInt significand) (lowered.2 - 52))

/-- Units as a decimal. -/
def decimalValue (store : Store) (v : TickVolume) (quantityUnits : ℤ) : Option Float :=
  if quantityUnits ≤ 2 ^ 53 then some (fromInt quantityUnits / v.divisor)
  else longDivision store v.decimalPlaces quantityUnits.toNat

/-! ## Adding a tick -/

/-- The compensated sum. -/
def addSum (v : TickVolume) (quantity : Float) : TickVolume :=
  let nextSum := v.sum + quantity
  { v with
    sum := nextSum
    compensation :=
      if nextSum.isFinite then
        v.compensation
          + (if quantity ≤ v.sum then (v.sum - nextSum) + quantity
            else (quantity - nextSum) + v.sum)
      else 0.0 }

/-- The whole steps of a quantity. -/
def stepsOf (divisor quantity : Float) : Float := roundAway (quantity * divisor)

/-- Add a quantity. -/
def add (v : TickVolume) (quantity : Float) : Option TickVolume :=
  let next := v.addSum quantity
  if next.exact = false then some next
  else
    let rounded := stepsOf next.divisor quantity
    if rounded.isFinite = false ∨ ldexp 1.0 63 ≤ rounded then some { next with exact := false }
    else do
      let quantityUnits := toInt rounded
      let back ← next.decimalValue wrapped quantityUnits
      if (back == quantity) = false ∨ 2 ^ 63 - 1 - next.units < quantityUnits then
        some { next with exact := false }
      else some { next with units := next.units + quantityUnits }

/-- The sum. -/
def value (v : TickVolume) : Option Float :=
  if v.exact then v.decimalValue wrapped v.units else some (v.sum + v.compensation)

/-- The volume after ticks of the given quantities. -/
def addAll (v : TickVolume) (quantities : List Float) : Option TickVolume := quantities.foldlM add v

end TickVolume

end PineForge.Ticks
