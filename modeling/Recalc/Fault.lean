import Recalc.Graph.Basic

/-!
# Faults

Why a cell has no value: its program did not compile, its form or its place among the other cells
does not allow it to run, or it threw when it ran.
-/

namespace Recalc

inductive Fault
  | compile (message : String)
  | topLevelReturn
  /-- Names that other cells define too. -/
  | multipleDefinitions (names : List Name)
  /-- The names around each cycle through the cell, the first repeated at the end. -/
  | cyclicDependency (paths : List (List Name))
  | runtime (message : String)
  deriving DecidableEq, Repr

namespace Fault

def pathText (path : List Name) : String :=
  "(" ++ " -> ".intercalate (path.map fun name => "`" ++ name ++ "`") ++ ")"

def message : Fault → String
  | compile message => message
  | topLevelReturn => "Top level return statements are not allowed"
  | multipleDefinitions names => "Multiple definitions of `" ++ ", ".intercalate names ++ "`"
  | cyclicDependency paths => "Cyclical dependency " ++ ", ".intercalate (paths.map pathText)
  | runtime message => message

end Fault

end Recalc
