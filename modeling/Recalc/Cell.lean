import Recalc.Graph.Basic
import Recalc.Time

/-!
# Cells

A cell of a notebook holds text or code. Code comes from a compiler, which gives a program with its
imports and exports, or a message why there is none. A cell without a program imports and exports
nothing.
-/

namespace Recalc

structure Program (κ : Type) where
  imports : List Link
  exports : List Link
  code : κ
  /-- The name of the value that the program ends with. -/
  resultName : Option Name
  /-- Whether the program returns before its end. -/
  topLevelReturn : Bool
  deriving DecidableEq, Repr

/-- A program, or the message of the compiler. -/
abbrev Compilation (κ : Type) := Except String (Program κ)

inductive Content (κ : Type)
  | text (body : String)
  | code (source : Compilation κ)

structure Cell (κ : Type) where
  id : CellId
  content : Content κ
  /-- When the cell was last asked to run. -/
  requested : Time

namespace Content

variable {κ : Type}

def isCode : Content κ → Bool
  | text _ => false
  | code _ => true

def source? : Content κ → Option (Compilation κ)
  | text _ => none
  | code source => some source

def program? : Content κ → Option (Program κ)
  | code (.ok p) => some p
  | _ => none

end Content

namespace Cell

variable {κ : Type}

def isCode (c : Cell κ) : Bool := c.content.isCode

/-- What the cell shows to the dependency graph. -/
def interface (c : Cell κ) : Interface :=
  match c.content.program? with
  | some p => ⟨c.id, p.imports, p.exports⟩
  | none => ⟨c.id, [], []⟩

theorem interface_id (c : Cell κ) : c.interface.id = c.id := by
  rw [interface]
  split <;> rfl

end Cell

end Recalc
