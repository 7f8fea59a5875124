import Recalc.Json.Number

/-!
# Reading JSON

A reader takes characters from the front of a list and returns what it read and the rest. Values
nest at most 127 deep. The members of an object are returned as they stand, repeated names included.

`skipValue?` passes over a value of which only the form matters: neither its depth, nor the size of
its numbers, nor the pairing of its surrogates is checked.
-/

namespace Recalc

namespace Json

def isBlank (c : Char) : Bool := c == ' ' || c == '\t' || c == '\n' || c == '\r'

def skipBlank (cs : List Char) : List Char := cs.dropWhile isBlank

def hexDigit? (c : Char) : Option Nat :=
  if c.isDigit then some (c.toNat - '0'.toNat)
  else if 'a' ≤ c ∧ c ≤ 'f' then some (c.toNat - 'a'.toNat + 10)
  else if 'A' ≤ c ∧ c ≤ 'F' then some (c.toNat - 'A'.toNat + 10)
  else none

def hex4? (a b c d : Char) : Option Nat := do
  pure ((((← hexDigit? a) * 16 + (← hexDigit? b)) * 16 + (← hexDigit? c)) * 16 + (← hexDigit? d))

def escaped? : Char → Option Char
  | '"' => some '"'
  | '\\' => some '\\'
  | '/' => some '/'
  | 'b' => some '\x08'
  | 'f' => some '\x0c'
  | 'n' => some '\n'
  | 'r' => some '\r'
  | 't' => some '\t'
  | _ => none

def isHighSurrogate (n : Nat) : Bool := 0xD800 ≤ n && n < 0xDC00

def isLowSurrogate (n : Nat) : Bool := 0xDC00 ≤ n && n < 0xE000

/-- The rest of a string after its opening quote. -/
def readString? : List Char → Option (List Char × List Char)
  | '"' :: rest => some ([], rest)
  | '\\' :: 'u' :: a :: b :: c :: d :: rest =>
    match hex4? a b c d with
    | none => none
    | some n =>
      if isLowSurrogate n then none
      else if isHighSurrogate n then
        match rest with
        | '\\' :: 'u' :: e :: f :: g :: h :: rest =>
          match hex4? e f g h with
          | none => none
          | some m =>
            if isLowSurrogate m then
              (readString? rest).map fun (text, rest) =>
                (Char.ofNat (0x10000 + (n - 0xD800) * 0x400 + (m - 0xDC00)) :: text, rest)
            else none
        | _ => none
      else (readString? rest).map fun (text, rest) => (Char.ofNat n :: text, rest)
  | '\\' :: c :: rest =>
    match escaped? c with
    | none => none
    | some e => (readString? rest).map fun (text, rest) => (e :: text, rest)
  | c :: rest =>
    if c.toNat < 0x20 ∨ c = '\\' then none
    else (readString? rest).map fun (text, rest) => (c :: text, rest)
  | [] => none

def readName? (cs : List Char) : Option (String × List Char) :=
  match skipBlank cs with
  | '"' :: rest => do
    let (name, rest) ← readString? rest
    match skipBlank rest with
    | ':' :: rest => pure (String.ofList name, rest)
    | _ => none
  | _ => none

mutual

/-- A value. The first number bounds the steps of reading, the second the depth that is left. -/
def readValue? : Nat → Nat → List Char → Option (Json × List Char)
  | 0, _, _ => none
  | steps + 1, depth, cs =>
    match skipBlank cs with
    | 'n' :: 'u' :: 'l' :: 'l' :: rest => some (null, rest)
    | 't' :: 'r' :: 'u' :: 'e' :: rest => some (bool true, rest)
    | 'f' :: 'a' :: 'l' :: 's' :: 'e' :: rest => some (bool false, rest)
    | '"' :: rest => (readString? rest).map fun (text, rest) => (string (String.ofList text), rest)
    | '[' :: rest =>
      if depth = 0 then none
      else
        match skipBlank rest with
        | ']' :: rest => some (array [], rest)
        | rest => (readItems? steps (depth - 1) rest).map fun (items, rest) => (array items, rest)
    | '\x7b' :: rest =>
      if depth = 0 then none
      else
        match skipBlank rest with
        | '\x7d' :: rest => some (object [], rest)
        | rest => (readMembers? steps (depth - 1) rest).map fun (ms, rest) => (object ms, rest)
    | rest => readNumber? rest

/-- The items of an array up to its closing bracket, at least one. -/
def readItems? : Nat → Nat → List Char → Option (List Json × List Char)
  | 0, _, _ => none
  | steps + 1, depth, cs => do
    let (v, rest) ← readValue? steps depth cs
    match skipBlank rest with
    | ']' :: rest => pure ([v], rest)
    | ',' :: rest => (readItems? steps depth rest).map fun (items, rest) => (v :: items, rest)
    | _ => none

/-- The members of an object up to its closing brace, at least one. -/
def readMembers? : Nat → Nat → List Char → Option (List (String × Json) × List Char)
  | 0, _, _ => none
  | steps + 1, depth, cs => do
    let (name, rest) ← readName? cs
    let (v, rest) ← readValue? steps depth rest
    match skipBlank rest with
    | '\x7d' :: rest => pure ([(name, v)], rest)
    | ',' :: rest => (readMembers? steps depth rest).map fun (ms, rest) => ((name, v) :: ms, rest)
    | _ => none

end

/-- The depth to which values nest. -/
def depthLimit : Nat := 127

/-- Enough steps to read a text: each step takes a character or enters a value. -/
def stepsFor (cs : List Char) : Nat := 2 * cs.length + 2

/-- The value of a whole text, with the members of objects as they stand. -/
def read? (text : String) : Option Json := do
  let cs := text.toList
  let (v, rest) ← readValue? (stepsFor cs) depthLimit cs
  if skipBlank rest = [] then pure v else none

def parse? (text : String) : Option Json := (read? text).map collapse

def skipString? : List Char → Option (List Char)
  | '"' :: rest => some rest
  | '\\' :: 'u' :: a :: b :: c :: d :: rest =>
    if (hex4? a b c d).isSome then skipString? rest else none
  | '\\' :: c :: rest => if (escaped? c).isSome then skipString? rest else none
  | c :: rest => if c.toNat < 0x20 ∨ c = '\\' then none else skipString? rest
  | [] => none

def skipExponent? : List Char → Option (List Char)
  | 'e' :: cs => (readExponent? cs).map Prod.snd
  | 'E' :: cs => (readExponent? cs).map Prod.snd
  | cs => some cs

def skipFraction? : List Char → Option (List Char)
  | '.' :: cs => if startsWithDigit cs then skipExponent? (dropDigits cs).2 else none
  | cs => skipExponent? cs

def skipUnsigned? : List Char → Option (List Char)
  | '0' :: cs => if startsWithDigit cs then none else skipFraction? cs
  | cs => if startsWithDigit cs then skipFraction? (dropDigits cs).2 else none

def skipNumber? : List Char → Option (List Char)
  | '-' :: cs => skipUnsigned? cs
  | cs => skipUnsigned? cs

def skipName? (cs : List Char) : Option (List Char) :=
  match skipBlank cs with
  | '"' :: rest => do
    let rest ← skipString? rest
    match skipBlank rest with
    | ':' :: rest => pure rest
    | _ => none
  | _ => none

mutual

/-- Passes over a value. The number bounds the steps. -/
def skipValue? : Nat → List Char → Option (List Char)
  | 0, _ => none
  | steps + 1, cs =>
    match skipBlank cs with
    | 'n' :: 'u' :: 'l' :: 'l' :: rest => some rest
    | 't' :: 'r' :: 'u' :: 'e' :: rest => some rest
    | 'f' :: 'a' :: 'l' :: 's' :: 'e' :: rest => some rest
    | '"' :: rest => skipString? rest
    | '[' :: rest =>
      match skipBlank rest with
      | ']' :: rest => some rest
      | rest => skipItems? steps rest
    | '\x7b' :: rest =>
      match skipBlank rest with
      | '\x7d' :: rest => some rest
      | rest => skipMembers? steps rest
    | rest => skipNumber? rest

def skipItems? : Nat → List Char → Option (List Char)
  | 0, _ => none
  | steps + 1, cs => do
    let rest ← skipValue? steps cs
    match skipBlank rest with
    | ']' :: rest => pure rest
    | ',' :: rest => skipItems? steps rest
    | _ => none

def skipMembers? : Nat → List Char → Option (List Char)
  | 0, _ => none
  | steps + 1, cs => do
    let rest ← skipName? cs
    let rest ← skipValue? steps rest
    match skipBlank rest with
    | '\x7d' :: rest => pure rest
    | ',' :: rest => skipMembers? steps rest
    | _ => none

end

end Json

end Recalc
