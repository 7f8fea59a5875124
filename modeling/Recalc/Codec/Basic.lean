import Recalc.Json.Basic

/-!
# Reading structures and variants

A structure is an object with a member for each field, in any order and among others, or an array of
its fields in order. A variant without content is its name, or an object with that name and `null`.
A tagged variant has its name and its content in two members, or in an array of the two.

A value that comes before the name of its variant is set aside until the name is known. A value that
was set aside is read with more latitude, and so is all that is in it: an empty object may stand for
`null` beside a name, and a number for the name at the front of an array.
-/

namespace Recalc

namespace Json

def occursOnce (members : List (String × Json)) (name : String) : Bool :=
  (members.filter fun m => m.1 == name).length ≤ 1

/-- The fields of a structure in the order of their names; a field may be absent, but not repeated. -/
def fields? (names : List String) : Json → Option (List (Option Json))
  | object members =>
    if names.all (occursOnce members) then some (names.map fun name => members.lookup name) else none
  | array items =>
    if items.length ≤ names.length then some ((List.range names.length).map fun i => items[i]?)
    else none
  | _ => none

/-- How a value comes to its reader: at once, or after it was set aside. -/
inductive Reading
  | direct
  | deferred
  deriving DecidableEq, Repr

/-- Whether a value stands for no content. -/
def isNothing (r : Reading) : Json → Bool
  | null => true
  | object [] => r == .deferred
  | _ => false

def variant? (r : Reading) : Json → Option String
  | string name => some name
  | object [(name, v)] => if v.isNothing r then some name else none
  | _ => none

/-- The variant at the front of an array, out of all the names in order. -/
def leadingVariant? (r : Reading) (names : List String) : Json → Option String
  | string name => some name
  | int n =>
    match r with
    | .direct => none
    | .deferred => (int n).nat?.bind fun i => names[i]?
  | _ => none

/-- How the content is read beside a tag among the members of an object. -/
def contentReading (r : Reading) (tag content : String) (members : List (String × Json)) :
    Reading :=
  match members.find? fun m => m.1 == tag || m.1 == content with
  | some m => if m.1 == tag then r else .deferred
  | none => r

/-- The name of a tagged variant, how its content is read, and the content if there is one. -/
def tagged? (r : Reading) (tag content : String) (names : List String) :
    Json → Option (String × Reading × Option Json)
  | object members => do
    match ← (object members).fields? [tag, content] with
    | [some name, value] =>
      pure (← name.variant? r, contentReading r tag content members, value)
    | _ => none
  | array [name, value] => do pure (← name.leadingVariant? r names, r, some value)
  | _ => none

def list? {α : Type} (decode : Json → Option α) (v : Json) : Option (List α) :=
  v.array?.bind (List.mapM decode)

def listOrEmpty? {α : Type} (decode : Json → Option α) : Option Json → Option (List α)
  | none => some []
  | some v => v.list? decode

def boolOrFalse? : Option Json → Option Bool
  | none => some false
  | some v => v.bool?

/-- A value that may be left out or `null`. -/
def optional? {α : Type} (decode : Json → Option α) : Option Json → Option (Option α)
  | none => some none
  | some null => some none
  | some v => (decode v).map some

end Json

end Recalc
