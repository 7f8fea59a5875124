import Recalc.Double.Shortest
import Recalc.Json.Basic

/-!
# Numbers in JSON

A number without fraction and exponent is a whole number as long as it fits into 64 bits, signed or
unsigned; all others are doubles. A double is read from at most 64 bits of its digits: further digits
before the point are replaced by zeros, and further digits after it are dropped.

A double is written with its shortest decimal. `layout` says where the point goes.
-/

namespace Recalc

namespace Json

def digit? (c : Char) : Option Nat :=
  if c.isDigit then some (c.toNat - '0'.toNat) else none

/-- Digits taken up while the significand stays below `2 ^ 64`, their number, and what follows. -/
def takeDigits (significand : Nat) : List Char → Nat × Nat × List Char
  | [] => (significand, 0, [])
  | c :: rest =>
    match digit? c with
    | none => (significand, 0, c :: rest)
    | some d =>
      if 10 * significand + d < Nat.pow 2 64 then
        let (s, count, after) := takeDigits (10 * significand + d) rest
        (s, count + 1, after)
      else (significand, 0, c :: rest)

def dropDigits : List Char → Nat × List Char
  | [] => (0, [])
  | c :: rest =>
    if c.isDigit then
      let (count, after) := dropDigits rest
      (count + 1, after)
    else (0, c :: rest)

def readDigits (value : Nat) : List Char → Nat × List Char
  | [] => (value, [])
  | c :: rest =>
    match digit? c with
    | none => (value, c :: rest)
    | some d => readDigits (10 * value + d) rest

def startsWithDigit : List Char → Bool
  | c :: _ => c.isDigit
  | [] => false

/-- A fraction after the point: the significand with it and the number of digits taken up. -/
def readFraction? (significand : Nat) (cs : List Char) : Option (Nat × Nat × List Char) :=
  if startsWithDigit cs then
    let (s, count, after) := takeDigits significand cs
    some (s, count, (dropDigits after).2)
  else none

def readExponent? : List Char → Option (Int × List Char)
  | '-' :: cs => if startsWithDigit cs then some (-(readDigits 0 cs).1, (readDigits 0 cs).2) else none
  | '+' :: cs => if startsWithDigit cs then some ((readDigits 0 cs).1, (readDigits 0 cs).2) else none
  | cs => if startsWithDigit cs then some ((readDigits 0 cs).1, (readDigits 0 cs).2) else none

/-- The value of a whole number: zero with a sign and numbers of more than 64 bits are doubles. -/
def wholeNumber? (negative : Bool) (significand : Nat) : Option Json :=
  if negative then
    if significand ≠ 0 ∧ significand ≤ Nat.pow 2 63 then some (int (-significand))
    else (Double.ofDecimal? true significand 0).map double
  else some (int significand)

/-- The part after the integer digits: fraction, exponent, or nothing. `dropped` counts the integer
digits that were not taken up. -/
def readTail? (negative : Bool) (significand dropped : Nat) (cs : List Char) :
    Option (Json × List Char) := do
  let (s, power, rest, fractional) ←
    match cs with
    | '.' :: cs => do
      let (s, count, rest) ← readFraction? significand cs
      pure (s, (dropped : Int) - count, rest, true)
    | cs => pure (significand, (dropped : Int), cs, false)
  let exponential :=
    match rest with
    | 'e' :: rest => some rest
    | 'E' :: rest => some rest
    | _ => none
  match exponential with
  | some rest => do
    let (e, rest) ← readExponent? rest
    let d ← Double.ofDecimal? negative s (power + e)
    pure (double d, rest)
  | none =>
    if fractional ∨ dropped ≠ 0 then do
      let d ← Double.ofDecimal? negative s power
      pure (double d, rest)
    else do
      let v ← wholeNumber? negative s
      pure (v, rest)

/-- The digits of a number after its sign. A leading zero stands alone. -/
def readUnsigned? (negative : Bool) : List Char → Option (Json × List Char)
  | '0' :: cs => if startsWithDigit cs then none else readTail? negative 0 0 cs
  | cs =>
    if startsWithDigit cs then
      let (s, _, after) := takeDigits 0 cs
      let (dropped, rest) := dropDigits after
      readTail? negative s dropped rest
    else none

def readNumber? : List Char → Option (Json × List Char)
  | '-' :: cs => readUnsigned? true cs
  | cs => readUnsigned? false cs

/-- How doubles are laid out: positional while the point stands at most 16 digits after or 4 places
before the first digit. -/
def layout (d : Decimal) : String :=
  let digits := toString d.digits
  let count : Int := digits.length
  let point := count + d.power
  if 0 ≤ d.power ∧ point ≤ 16 then
    digits ++ "".pushn '0' d.power.toNat ++ ".0"
  else if 0 < point ∧ point ≤ 16 then
    (digits.take point.toNat).toString ++ "." ++ (digits.drop point.toNat).toString
  else if -5 < point ∧ point ≤ 0 then
    "0." ++ "".pushn '0' (-point).toNat ++ digits
  else
    let fraction := if count = 1 then "" else "." ++ (digits.drop 1).toString
    let exponent := if 0 < point then s!"+{point - 1}" else toString (point - 1)
    (digits.take 1).toString ++ fraction ++ "e" ++ exponent

def doubleText (d : Double) : String :=
  (if d.negative then "-" else "") ++ if d.place = 0 then "0.0" else layout (Double.shortest d.place)

end Json

end Recalc
