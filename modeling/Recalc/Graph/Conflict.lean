import Recalc.Graph.Basic

/-!
# Rival definitions

A name is in conflict at a cell that sends it out while another cell sends it in. Rival exporters are
neighbours in the graph, so each of them sees the others.
-/

namespace Recalc

namespace Graph

/-- The names that a cell sends out. -/
def sent (g : Graph) (id : CellId) : List Name :=
  (g.arcs.filter fun a => a.source == id).map fun a => a.link.output

/-- The names that other cells send to a cell. -/
def received (g : Graph) (id : CellId) : List Name :=
  (g.arcs.filter fun a => a.target == id && a.source != id).map fun a => a.link.output

theorem mem_sent_iff {g : Graph} {id : CellId} {name : Name} :
    name ∈ g.sent id ↔ ∃ a ∈ g.arcs, a.source = id ∧ a.link.output = name := by
  simp [sent, and_assoc]

theorem mem_received_iff {g : Graph} {id : CellId} {name : Name} :
    name ∈ g.received id ↔
      ∃ a ∈ g.arcs, a.target = id ∧ a.source ≠ id ∧ a.link.output = name := by
  simp [received, and_assoc]

/-- The names in conflict at a cell, each once, in the order of names. -/
def conflicts (g : Graph) (id : CellId) : List Name :=
  ((g.received id).filter fun name => (g.sent id).contains name).eraseDups.mergeSort
    fun x y => decide (x ≤ y)

theorem mem_conflicts_iff {g : Graph} {id : CellId} {name : Name} :
    name ∈ g.conflicts id ↔ name ∈ g.received id ∧ name ∈ g.sent id := by
  simp [conflicts]

/-- The cells with names in conflict, with these names, by ascending cell. -/
def allConflicts (g : Graph) : List (CellId × List Name) :=
  ((g.ids.map fun id => (id, g.conflicts id)).filter fun p => !p.2.isEmpty).mergeSort
    fun p q => decide (p.1.number ≤ q.1.number)

end Graph

end Recalc
