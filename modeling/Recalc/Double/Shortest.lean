import Recalc.Double.Basic

/-!
# Shortest decimals

The decimal of a double is a multiple of the largest power of ten that has a multiple closer to the
double than to its neighbours; of two such multiples it is the nearer one, the even one of a tie. The
midpoints between a double and its neighbours count as closer if the double is even.
-/

namespace Recalc

/-- The number `digits · 10 ^ power`. -/
structure Decimal where
  digits : Nat
  power : Int
  deriving DecidableEq, Repr

namespace Double

/-- Whether a double at `place` is the one nearest to `digits · 10 ^ power`. Everything is counted in
halves of a unit, and the negative powers are multiplied out. -/
def readsBack (place digits : Nat) (power : Int) : Bool :=
  let middle := units (place - 1) + units place
  let middle' := units place + units (place + 1)
  let value := digits * Nat.pow 10 power.toNat * (2 * unitsOfOne)
  let cleared := Nat.pow 10 (-power).toNat
  if place % 2 = 0 then middle * cleared ≤ value ∧ value ≤ middle' * cleared
  else middle * cleared < value ∧ value < middle' * cleared

/-- The best multiple of `10 ^ power` that reads back as the double at `place`. -/
def decimalAt? (place : Nat) (power : Int) : Option Decimal :=
  let step := Nat.pow 10 power.toNat * unitsOfOne
  let value := units place * Nat.pow 10 (-power).toNat
  let below := value / step
  match readsBack place below power, readsBack place (below + 1) power with
  | true, true => some ⟨nearest value step, power⟩
  | true, false => some ⟨below, power⟩
  | false, true => some ⟨below + 1, power⟩
  | false, false => none

/-- A power of ten above the number at a place. -/
def powerAbove (place : Nat) : Int :=
  (((units place).log2 : Int) - 1073) * 30103 / 100000 + 2

/-- The shortest decimal of a positive double. Seventeen digits are always enough. -/
def shortest (place : Nat) : Decimal :=
  ((List.range 25).findSome? fun (i : Nat) => decimalAt? place (powerAbove place - i)).getD
    ⟨units place, -1074⟩

end Double

end Recalc
