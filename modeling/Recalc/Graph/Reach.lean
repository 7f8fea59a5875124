import Recalc.Graph.Basic

/-!
# What a cell depends on

A breadth-first search, layer by layer: a layer holds the cells next to the layer before it that have
not been met. Cells are listed nearest first, and the start is not listed.
-/

namespace Recalc

/-- The cells next to a layer that are not in `seen`, each once. -/
def nextLayer (next : CellId → List CellId) (seen layer : List CellId) : List CellId :=
  (layer.flatMap next).eraseDups.filter fun id => decide (id ∉ seen)

/-- The layers after the given one, joined. The number bounds the layers. -/
def laterLayers (next : CellId → List CellId) : Nat → List CellId → List CellId → List CellId
  | 0, _, _ => []
  | rounds + 1, seen, layer =>
    let fresh := nextLayer next seen layer
    fresh ++ laterLayers next rounds (seen ++ fresh) fresh

theorem mem_nextLayer_iff {next : CellId → List CellId} {seen layer : List CellId} {id : CellId} :
    id ∈ nextLayer next seen layer ↔ (∃ u ∈ layer, id ∈ next u) ∧ id ∉ seen := by
  simp [nextLayer]

theorem laterLayers_nil (next : CellId → List CellId) (rounds : Nat) (seen : List CellId) :
    laterLayers next rounds seen [] = [] := by
  induction rounds generalizing seen with
  | zero => rfl
  | succ rounds ih => simp [laterLayers, nextLayer, ih]

namespace Graph

/-- The cells that `id` reads from, directly or through others. There are no more layers than
cells. -/
def ancestors (g : Graph) (id : CellId) : List CellId :=
  laterLayers g.sources g.ids.length [id] [id]

def descendants (g : Graph) (id : CellId) : List CellId :=
  laterLayers g.targets g.ids.length [id] [id]

end Graph

end Recalc
