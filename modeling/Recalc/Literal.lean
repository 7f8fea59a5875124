import Recalc.Engine.Basic
import Recalc.Json.Printer

/-!
# Literal code

The code of a literal cell binds names to JSON values in order. A string that starts with a dollar
stands for the input of that name, an object with a member `$throw` throws it, and every other value
stands for itself. The first throw decides.
-/

namespace Recalc

/-- The bindings of a cell in the order of their declaration. -/
abbrev LiteralCode := List (Name × Json)

namespace Literal

def notDefined (name : Name) : String := name ++ " is not defined"

def aborted (cell : CellId) : String := cell.display ++ " was aborted"

/-- The message of a thrown value: a string as it is, anything else in JSON. -/
def thrownMessage : Json → String
  | .string message => message
  | v => v.compact

def reference? (text : String) : Option Name :=
  match text.toList with
  | '$' :: name => some (String.ofList name)
  | _ => none

def evaluate (inputs : Bindings Json) : Json → Except String Json
  | .string text =>
    match reference? text with
    | none => .ok (.string text)
    | some name =>
      match inputs.get? name with
      | some v => .ok v
      | none => .error (notDefined name)
  | .object members =>
    match members.lookup "$throw" with
    | some thrown => .error (thrownMessage thrown)
    | none => .ok (.object members)
  | v => .ok v

/-- Adds the bindings of code to others. Of two bindings of one name the later counts. -/
def bindAll (inputs : Bindings Json) (bound : Bindings Json) :
    LiteralCode → Except String (Bindings Json)
  | [] => .ok bound
  | (name, literal) :: rest =>
    match evaluate inputs literal with
    | .error message => .error message
    | .ok v => bindAll inputs (bound.insert name v) rest

def run : Runner LiteralCode Json := fun request =>
  if request.cancelled then .error (aborted request.cell)
  else bindAll request.inputs ∅ request.code

end Literal

end Recalc
