import Recalc.Json.Number

/-!
# Writing JSON

On one line without spaces, or with one member or item a line, indented by two spaces. Quotes,
backslashes and control characters are escaped, and all other characters stand for themselves.
-/

namespace Recalc

namespace Json

def hexDigit (n : Nat) : Char := (Nat.digitChar (n % 16))

def escapeChar (c : Char) : String :=
  match c with
  | '"' => "\\\""
  | '\\' => "\\\\"
  | '\x08' => "\\b"
  | '\x0c' => "\\f"
  | '\n' => "\\n"
  | '\r' => "\\r"
  | '\t' => "\\t"
  | c =>
    if c.toNat < 0x20 then
      "\\u00" ++ String.ofList [hexDigit (c.toNat / 16), hexDigit c.toNat]
    else String.singleton c

def quote (s : String) : String :=
  "\"" ++ s.foldl (fun text c => text ++ escapeChar c) "" ++ "\""

mutual

def compact : Json → String
  | null => "null"
  | bool b => if b then "true" else "false"
  | int n => toString n
  | double d => doubleText d
  | string s => quote s
  | array items => "[" ++ ",".intercalate (compactItems items) ++ "]"
  | object members => "\x7b" ++ ",".intercalate (compactMembers members) ++ "\x7d"

def compactItems : List Json → List String
  | [] => []
  | v :: rest => v.compact :: compactItems rest

def compactMembers : List (String × Json) → List String
  | [] => []
  | (name, v) :: rest => (quote name ++ ":" ++ v.compact) :: compactMembers rest

end

/-- Lines between brackets, each at its indentation. -/
def block (opening closing : String) (indent : Nat) (lines : List String) : String :=
  if lines.isEmpty then opening ++ closing
  else
    let margin := "\n" ++ "".pushn ' ' (2 * (indent + 1))
    opening ++ margin ++ ("," ++ margin).intercalate lines ++ "\n" ++ "".pushn ' ' (2 * indent) ++
      closing

mutual

/-- The value over several lines, its own lines after the first indented by `indent` steps. -/
def prettyAt (indent : Nat) : Json → String
  | array items => block "[" "]" indent (prettyItems (indent + 1) items)
  | object members => block "\x7b" "\x7d" indent (prettyMembers (indent + 1) members)
  | v => v.compact

def prettyItems (indent : Nat) : List Json → List String
  | [] => []
  | v :: rest => v.prettyAt indent :: prettyItems indent rest

def prettyMembers (indent : Nat) : List (String × Json) → List String
  | [] => []
  | (name, v) :: rest => (quote name ++ ": " ++ v.prettyAt indent) :: prettyMembers indent rest

end

def pretty (v : Json) : String := v.prettyAt 0

end Json

end Recalc
