/-!
# Cell identifiers

Cells are numbered. The order of the numbers is the order in which records are listed.
-/

namespace Recalc

structure CellId where
  number : Nat
  deriving DecidableEq, Repr, Inhabited

namespace CellId

/-- Numbers of cells stay below this bound. -/
def bound : Nat := Nat.pow 2 64

def display (id : CellId) : String := s!"cell_{id.number}"

/-- The number after this one, if it stays below the bound. -/
def next? (id : CellId) : Option CellId :=
  if id.number + 1 < bound then some ⟨id.number + 1⟩ else none

theorem next?_eq_some_iff {id after : CellId} :
    id.next? = some after ↔ id.number + 1 < bound ∧ after = ⟨id.number + 1⟩ := by
  simp [next?, eq_comm]

theorem next?_eq_none_iff {id : CellId} : id.next? = none ↔ bound ≤ id.number + 1 := by
  simp [next?]

instance : Ord CellId := ⟨fun a b => compare a.number b.number⟩

theorem compare_eq (a b : CellId) : compare a b = compare a.number b.number := rfl

instance : Std.TransOrd CellId where
  eq_swap := by
    intro a b
    rw [compare_eq, compare_eq]
    exact Std.OrientedCmp.eq_swap
  isLE_trans := by
    intro a b c hab hbc
    rw [compare_eq] at *
    exact Std.TransCmp.isLE_trans hab hbc

instance : Std.LawfulEqOrd CellId where
  compare_self := by
    intro a
    rw [compare_eq]
    exact Std.ReflCmp.compare_self
  eq_of_compare := by
    intro a b h
    obtain ⟨m⟩ := a
    obtain ⟨n⟩ := b
    rw [compare_eq] at h
    exact congrArg CellId.mk (Std.LawfulEqCmp.eq_of_compare h)

end CellId

end Recalc
