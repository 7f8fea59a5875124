import Recalc.Graph.Basic

/-!
# Elementary cycles

A cycle is a list of distinct cells in which each feeds the next and the last feeds the first. Each
is written from the member that the graph lists first, so a search from a cell extends its path by
later cells only.
-/

namespace Recalc

namespace Graph

/-- `u` comes after `v` in the list of cells. -/
def IsLater (g : Graph) (u v : CellId) : Prop := g.ids.idxOf v < g.ids.idxOf u

instance (g : Graph) (u v : CellId) : Decidable (g.IsLater u v) :=
  inferInstanceAs (Decidable (_ < _))

/-- The cycles through `start` that continue `path`, whose last cell is `current`. The number bounds
the cells still to come. -/
def cyclesAlong (g : Graph) (start : CellId) : Nat → List CellId → CellId → List (List CellId)
  | 0, _, _ => []
  | room + 1, path, current =>
    (g.targets current).flatMap fun next =>
      if next = start then [path]
      else if g.IsLater next start ∧ next ∉ path then
        cyclesAlong g start room (path ++ [next]) next
      else []

def cyclesFrom (g : Graph) (start : CellId) : List (List CellId) :=
  cyclesAlong g start g.ids.length [start] start

/-- The cycles in the order in which the searches meet them. -/
def foundCycles (g : Graph) : List (List CellId) := g.ids.flatMap g.cyclesFrom

/-- A cycle written from one of its members on. -/
def rotateTo (start : CellId) (cycle : List CellId) : List CellId :=
  cycle.dropWhile (· ≠ start) ++ cycle.takeWhile (· ≠ start)

/-- A cycle written from its member with the smallest number on. -/
def canonical (cycle : List CellId) : List CellId :=
  match (cycle.map CellId.number).min? with
  | none => []
  | some n => rotateTo ⟨n⟩ cycle

/-- Of the cycles with one canonical form the first is kept. The first list holds the forms that have
come before. -/
def keepFirst (seen : List (List CellId)) : List (List CellId) → List (List CellId)
  | [] => []
  | cycle :: rest =>
    if canonical cycle ∈ seen then keepFirst seen rest
    else cycle :: keepFirst (canonical cycle :: seen) rest

def cycles (g : Graph) : List (List CellId) := keepFirst [] g.foundCycles

/-- The members of a cycle in pairs, each with the one it feeds. -/
def hops (cycle : List CellId) : List (CellId × CellId) :=
  cycle.zip (cycle.drop 1 ++ cycle.take 1)

theorem mem_rotateTo_iff {start id : CellId} {cycle : List CellId} :
    id ∈ rotateTo start cycle ↔ id ∈ cycle := by
  rw [rotateTo, List.mem_append, or_comm, ← List.mem_append, List.takeWhile_append_dropWhile]

/-- Distinct cells, each feeding the next and the last feeding the first. -/
structure IsCycle (g : Graph) (cycle : List CellId) : Prop where
  ne_nil : cycle ≠ []
  nodup : cycle.Nodup
  feeds : ∀ hop ∈ hops cycle, g.Feeds hop.1 hop.2

/-- The name under which `u` feeds `v`: that of the first arc between them. -/
def arcName? (g : Graph) (u v : CellId) : Option Name :=
  ((g.outputs u).find? fun p => p.1 == v).map fun p => p.2.output

/-- The names around a cycle from one of its members, the first of them repeated at the end. -/
def cycleNames (g : Graph) (start : CellId) (cycle : List CellId) : List Name :=
  let names := (hops (rotateTo start cycle)).filterMap fun hop => g.arcName? hop.1 hop.2
  names ++ names.take 1

theorem arcName?_isSome_iff {g : Graph} {u v : CellId} :
    (g.arcName? u v).isSome ↔ g.Feeds u v := by
  simp [arcName?, outputs, Feeds]

end Graph

end Recalc
