import Recalc.Graph.Basic

/-!
# Producers before consumers

A cell is listed once everything it reads from has been listed, by a depth-first search along the
inputs. Cells keep the order of the graph as far as the inputs allow. A cycle does not stop the
search: a cell met again while its inputs are being listed is passed over.
-/

namespace Recalc

structure Search where
  seen : List CellId
  listed : List CellId
  deriving DecidableEq, Repr

namespace Search

/-- Lists a cell after the cells it reads from. The first argument bounds the depth. -/
def visit (sources : CellId → List CellId) : Nat → Search → CellId → Search
  | 0, s, _ => s
  | depth + 1, s, id =>
    if id ∈ s.seen then s
    else
      let inner := (sources id).foldl (visit sources depth) { s with seen := id :: s.seen }
      { inner with listed := inner.listed ++ [id] }

end Search

namespace Graph

/-- Every cell once, producers before consumers where cycles allow it. A search meets a new cell at
each step downwards, so it goes no deeper than there are cells. -/
def order (g : Graph) : List CellId :=
  (g.ids.foldl (Search.visit g.sources g.ids.length) ⟨[], []⟩).listed

end Graph

end Recalc
