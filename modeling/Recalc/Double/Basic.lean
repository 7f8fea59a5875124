/-!
# Finite doubles

The finite numbers of the binary format with 53 significant bits, in exact arithmetic. Every one is a
whole number of units `2 ^ -1074`. The non-negative ones are numbered in ascending order, and a
number rounds to the nearest of them, a tie to the even one.
-/

namespace Recalc

structure Double where
  negative : Bool
  /-- The place of the absolute value among the non-negative finite doubles. -/
  place : Nat
  deriving DecidableEq, Repr

namespace Double

/-- The weight of one is this many units. -/
def unitsOfOne : Nat := Nat.pow 2 1074

/-- The place of the first number too large for the format. -/
def endPlace : Nat := 2047 * Nat.pow 2 52

/-- The units in the number at a place: below `2 ^ 53` they are the places themselves, and after that
each run of `2 ^ 52` places has twice the step of the one before. -/
def units (place : Nat) : Nat :=
  let run := Nat.pow 2 52
  if place < run then place else (run + place % run) * Nat.pow 2 (place / run - 1)

/-- The whole number nearest to `num / den`, the even one of two. -/
def nearest (num den : Nat) : Nat :=
  let below := num / den
  let rest := 2 * (num % den)
  if rest < den ∨ (rest = den ∧ below % 2 = 0) then below else below + 1

/-- The place nearest to `num / den`, if the format reaches that far. -/
def round? (num den : Nat) : Option Nat :=
  let scaled := num * unitsOfOne
  let shift := (scaled / den).log2 - 52
  let place := shift * Nat.pow 2 52 + nearest scaled (den * Nat.pow 2 shift)
  if place < endPlace then some place else none

def mul? (p q : Nat) : Option Nat := round? (units p * units q) (unitsOfOne * unitsOfOne)

def div? (p q : Nat) : Option Nat := round? (units p) (units q)

/-- Multiplies by a power of ten, rounding after each step. A power beyond `10 ^ 308` is out of reach
upwards, and downwards it is taken in several steps. -/
def scale? (place : Nat) (power : Int) : Option Nat :=
  if power.natAbs ≤ 308 then
    (round? (Nat.pow 10 power.natAbs) 1).bind (if 0 ≤ power then mul? place else div? place)
  else if place = 0 then some 0
  else if 0 ≤ power then none
  else ((round? (Nat.pow 10 308) 1).bind (div? place)).bind fun less => scale? less (power + 308)
termination_by power.natAbs
decreasing_by omega

/-- The double read from `±significand · 10 ^ power`. -/
def ofDecimal? (negative : Bool) (significand : Nat) (power : Int) : Option Double :=
  ((round? significand 1).bind fun place => scale? place power).map fun place =>
    ⟨negative, place⟩

end Double

end Recalc
