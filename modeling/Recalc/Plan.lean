import Recalc.Fault
import Recalc.Graph.Conflict
import Recalc.Graph.Cycle
import Recalc.Graph.Order
import Recalc.Notebook.Basic

/-!
# Plans

A plan lists the code cells of a notebook in dependency order and says of each whether it can run.
The first fault decides: a program that did not compile, one that returns at top level, names that
other cells define too, and a place on a cycle.
-/

namespace Recalc

structure Runnable (κ : Type) where
  node : Node
  code : κ
  resultName : Option Name
  requested : Time
  deriving DecidableEq, Repr

structure Faulty where
  node : Node
  fault : Fault
  requested : Time
  deriving DecidableEq, Repr

inductive Entry (κ : Type)
  | runnable (r : Runnable κ)
  | faulty (f : Faulty)
  deriving DecidableEq, Repr

namespace Entry

variable {κ : Type}

def node : Entry κ → Node
  | runnable r => r.node
  | faulty f => f.node

def id (e : Entry κ) : CellId := e.node.id

def requested : Entry κ → Time
  | runnable r => r.requested
  | faulty f => f.requested

def runnable? : Entry κ → Option (Runnable κ)
  | runnable r => some r
  | faulty _ => none

def faulty? : Entry κ → Option Faulty
  | runnable _ => none
  | faulty f => some f

end Entry

structure Plan (κ : Type) where
  graph : Graph
  entries : List (Entry κ)
  deriving DecidableEq, Repr

namespace Plan

variable {κ : Type}

/-- The fault of a program at its place in the graph, given the cycles of the graph. -/
def fault? (g : Graph) (cycles : List (List CellId)) (id : CellId) (p : Program κ) :
    Option Fault :=
  if p.topLevelReturn then some .topLevelReturn
  else
    let names := g.conflicts id
    if names ≠ [] then some (.multipleDefinitions names)
    else
      let paths := (cycles.filter fun cycle => cycle.contains id).map (g.cycleNames id)
      if paths ≠ [] then some (.cyclicDependency paths) else none

def entryOf (g : Graph) (cycles : List (List CellId)) (id : CellId) (requested : Time) :
    Compilation κ → Entry κ
  | .error message => .faulty ⟨g.node id, .compile message, requested⟩
  | .ok p =>
    match fault? g cycles id p with
    | some fault => .faulty ⟨g.node id, fault, requested⟩
    | none => .runnable ⟨g.node id, p.code, p.resultName, requested⟩

def graphOf (nb : Notebook κ) : Graph := Graph.ofInterfaces (nb.codeCells.map Cell.interface)

def draft (nb : Notebook κ) : Plan κ :=
  let g := graphOf nb
  let cycles := g.cycles
  { graph := g
    entries := g.order.filterMap fun id =>
      (nb.cell? id).bind fun c => c.content.source?.map (entryOf g cycles id c.requested) }

/-- The cells of a plan, inputs first where cycles allow it. -/
def order (plan : Plan κ) : List CellId := plan.entries.map Entry.id

def runnables (plan : Plan κ) : List (Runnable κ) := plan.entries.filterMap Entry.runnable?

def faults (plan : Plan κ) : List Faulty := plan.entries.filterMap Entry.faulty?

def find? (plan : Plan κ) (id : CellId) : Option (Entry κ) :=
  plan.entries.find? fun e => e.id == id

def runnable? (plan : Plan κ) (id : CellId) : Option (Runnable κ) :=
  (plan.find? id).bind Entry.runnable?

def faulty? (plan : Plan κ) (id : CellId) : Option Faulty :=
  (plan.find? id).bind Entry.faulty?

theorem id_entryOf (g : Graph) (cycles : List (List CellId)) (id : CellId) (requested : Time)
    (source : Compilation κ) : (entryOf g cycles id requested source).id = id := by
  cases source with
  | error message => rfl
  | ok p =>
    rw [entryOf]
    split <;> rfl

theorem mem_runnables_iff {plan : Plan κ} {r : Runnable κ} :
    r ∈ plan.runnables ↔ .runnable r ∈ plan.entries := by
  simp only [runnables, List.mem_filterMap]
  constructor
  · rintro ⟨e, he, hr⟩
    cases e <;> simp_all [Entry.runnable?]
  · exact fun h => ⟨_, h, rfl⟩

theorem mem_faults_iff {plan : Plan κ} {f : Faulty} :
    f ∈ plan.faults ↔ .faulty f ∈ plan.entries := by
  simp only [faults, List.mem_filterMap]
  constructor
  · rintro ⟨e, he, hf⟩
    cases e <;> simp_all [Entry.faulty?]
  · exact fun h => ⟨_, h, rfl⟩

end Plan

end Recalc
