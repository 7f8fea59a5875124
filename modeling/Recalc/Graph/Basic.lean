import Recalc.CellId

/-!
# The dependency graph

A cell shows an interface: the names it imports and the names it exports. An export feeds every cell
that imports its name, and is joined to every other cell that exports the same name, so that rival
definitions are neighbours. The name `default` may be exported by many cells and makes no rivals.

Arcs are listed in the order in which they are created. `mem_arcs_ofInterfaces_iff` says which arcs
there are.
-/

namespace Recalc

abbrev Name := String

/-- The name under which a cell shows what it is on display; each cell may have its own. -/
def Name.default : Name := "default"

/-- A link takes a name across the boundary of a cell: `input` is what the reading side calls it,
`output` what the writing side calls it. -/
structure Link where
  input : Name
  output : Name
  deriving DecidableEq, Repr, Inhabited

/-- The link of a name that both sides use. -/
def Link.same (name : Name) : Link := ⟨name, name⟩

structure Interface where
  id : CellId
  imports : List Link
  exports : List Link
  deriving DecidableEq, Repr, Inhabited

def Interface.Exports (c : Interface) (name : Name) : Prop :=
  ∃ e ∈ c.exports, e.output = name

instance (c : Interface) (name : Name) : Decidable (c.Exports name) :=
  inferInstanceAs (Decidable (∃ e ∈ c.exports, e.output = name))

structure Arc where
  source : CellId
  target : CellId
  link : Link
  deriving DecidableEq, Repr

/-- A cell with its arcs: the sources of those that enter it and the targets of those that leave. -/
structure Node where
  id : CellId
  inputs : List (CellId × Link)
  outputs : List (CellId × Link)
  deriving DecidableEq, Repr

/-- The cells a node reads from, each once. -/
def Node.inputIds (n : Node) : List CellId := (n.inputs.map Prod.fst).eraseDups

def Node.reads (n : Node) (id : CellId) : Bool := n.inputs.any fun p => p.1 == id

theorem Node.mem_inputIds_iff {n : Node} {id : CellId} :
    id ∈ n.inputIds ↔ n.reads id = true := by
  simp [Node.inputIds, Node.reads]

structure Graph where
  ids : List CellId
  arcs : List Arc
  deriving DecidableEq, Repr

namespace Graph

/-- Arcs from an export of `producer` to the imports that read it. -/
def readerArcs (producer : CellId) (e : Link) (c : Interface) : List Arc :=
  (c.imports.filter fun i => i.input == e.output).map fun i =>
    ⟨producer, c.id, ⟨i.input, e.output⟩⟩

/-- The arc from an export of `producer` to another cell with the same export. -/
def rivalArcs (producer : CellId) (e : Link) (c : Interface) : List Arc :=
  if c.id ≠ producer ∧ c.Exports e.output then [⟨producer, c.id, e⟩] else []

def exportArcs (cells : List Interface) (producer : CellId) (e : Link) : List Arc :=
  cells.flatMap (readerArcs producer e) ++
    if e.output = Name.default then [] else cells.flatMap (rivalArcs producer e)

def arcsFrom (cells : List Interface) (producer : Interface) : List Arc :=
  producer.exports.flatMap (exportArcs cells producer.id)

def ofInterfaces (cells : List Interface) : Graph where
  ids := (cells.map Interface.id).eraseDups
  arcs := cells.flatMap (arcsFrom cells)

/-- The arcs that enter a cell. -/
def inputs (g : Graph) (id : CellId) : List (CellId × Link) :=
  (g.arcs.filter fun a => a.target == id).map fun a => (a.source, a.link)

/-- The arcs that leave a cell. -/
def outputs (g : Graph) (id : CellId) : List (CellId × Link) :=
  (g.arcs.filter fun a => a.source == id).map fun a => (a.target, a.link)

/-- The cells that a cell reads from, each once, in the order of the arcs. -/
def sources (g : Graph) (id : CellId) : List CellId := ((g.inputs id).map Prod.fst).eraseDups

/-- The cells that read from a cell, each once, in the order of the arcs. -/
def targets (g : Graph) (id : CellId) : List CellId := ((g.outputs id).map Prod.fst).eraseDups

def node (g : Graph) (id : CellId) : Node := ⟨id, g.inputs id, g.outputs id⟩

/-- An arc runs from `u` to `v`. -/
def Feeds (g : Graph) (u v : CellId) : Prop := ∃ a ∈ g.arcs, a.source = u ∧ a.target = v

instance (g : Graph) (u v : CellId) : Decidable (g.Feeds u v) :=
  inferInstanceAs (Decidable (∃ a ∈ g.arcs, a.source = u ∧ a.target = v))

theorem mem_sources_iff {g : Graph} {u v : CellId} : u ∈ g.sources v ↔ g.Feeds u v := by
  simp [sources, inputs, Feeds, and_assoc, and_comm]

theorem mem_targets_iff {g : Graph} {u v : CellId} : v ∈ g.targets u ↔ g.Feeds u v := by
  simp [targets, outputs, Feeds, and_assoc]

theorem mem_inputs_iff {g : Graph} {id other : CellId} {p : Link} :
    (other, p) ∈ g.inputs id ↔ ⟨other, id, p⟩ ∈ g.arcs := by
  simp only [inputs, List.mem_map, List.mem_filter, beq_iff_eq, Prod.mk.injEq]
  constructor
  · rintro ⟨⟨s, t, q⟩, ⟨ha, rfl⟩, rfl, rfl⟩
    exact ha
  · exact fun ha => ⟨_, ⟨ha, rfl⟩, rfl, rfl⟩

theorem mem_outputs_iff {g : Graph} {id other : CellId} {p : Link} :
    (other, p) ∈ g.outputs id ↔ ⟨id, other, p⟩ ∈ g.arcs := by
  simp only [outputs, List.mem_map, List.mem_filter, beq_iff_eq, Prod.mk.injEq]
  constructor
  · rintro ⟨⟨s, t, q⟩, ⟨ha, rfl⟩, rfl, rfl⟩
    exact ha
  · exact fun ha => ⟨_, ⟨ha, rfl⟩, rfl, rfl⟩

theorem mem_readerArcs_iff {producer : CellId} {e : Link} {c : Interface} {a : Arc} :
    a ∈ readerArcs producer e c ↔
      ∃ i ∈ c.imports, i.input = e.output ∧ a = ⟨producer, c.id, Link.same e.output⟩ := by
  simp only [readerArcs, List.mem_map, List.mem_filter, beq_iff_eq, and_assoc, Link.same]
  constructor
  · rintro ⟨i, hi, hie, rfl⟩
    exact ⟨i, hi, hie, by rw [hie]⟩
  · rintro ⟨i, hi, hie, rfl⟩
    exact ⟨i, hi, hie, by rw [hie]⟩

theorem mem_rivalArcs_iff {producer : CellId} {e : Link} {c : Interface} {a : Arc} :
    a ∈ rivalArcs producer e c ↔
      (c.id ≠ producer ∧ c.Exports e.output) ∧ a = ⟨producer, c.id, e⟩ := by
  rw [rivalArcs]
  split
  · next h => simp only [List.mem_singleton, h, ne_eq, not_false_eq_true, and_self, true_and]
  · next h => simp only [List.not_mem_nil, h, false_and]

theorem mem_arcs_ofInterfaces_iff {cells : List Interface} {a : Arc} :
    a ∈ (ofInterfaces cells).arcs ↔
      ∃ p ∈ cells, ∃ e ∈ p.exports, ∃ c ∈ cells,
        (∃ i ∈ c.imports, i.input = e.output ∧ a = ⟨p.id, c.id, Link.same e.output⟩) ∨
        (e.output ≠ Name.default ∧ (c.id ≠ p.id ∧ c.Exports e.output) ∧ a = ⟨p.id, c.id, e⟩) := by
  simp only [ofInterfaces, arcsFrom, List.mem_flatMap, exportArcs, List.mem_append,
    mem_readerArcs_iff]
  refine exists_congr fun p => and_congr_right fun _ => exists_congr fun e =>
    and_congr_right fun _ => ?_
  by_cases hd : e.output = Name.default
  · simp [hd]
  · simp only [hd, if_false, List.mem_flatMap, mem_rivalArcs_iff, ne_eq, not_false_eq_true,
      true_and]
    constructor
    · rintro (⟨c, hc, h⟩ | ⟨c, hc, h⟩)
      · exact ⟨c, hc, Or.inl h⟩
      · exact ⟨c, hc, Or.inr h⟩
    · rintro ⟨c, hc, h | h⟩
      · exact Or.inl ⟨c, hc, h⟩
      · exact Or.inr ⟨c, hc, h⟩

theorem mem_ids_ofInterfaces_iff {cells : List Interface} {id : CellId} :
    id ∈ (ofInterfaces cells).ids ↔ ∃ c ∈ cells, c.id = id := by
  simp [ofInterfaces]

theorem ids_of_feeds_ofInterfaces {cells : List Interface} {u v : CellId}
    (h : (ofInterfaces cells).Feeds u v) :
    u ∈ (ofInterfaces cells).ids ∧ v ∈ (ofInterfaces cells).ids := by
  obtain ⟨a, ha, rfl, rfl⟩ := h
  obtain ⟨p, hp, e, _, c, hc, ⟨_, _, _, rfl⟩ | ⟨_, _, rfl⟩⟩ := mem_arcs_ofInterfaces_iff.mp ha <;>
    exact ⟨mem_ids_ofInterfaces_iff.mpr ⟨p, hp, rfl⟩, mem_ids_ofInterfaces_iff.mpr ⟨c, hc, rfl⟩⟩

end Graph

end Recalc
