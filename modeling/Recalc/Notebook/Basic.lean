import Recalc.Cell

/-!
# Notebooks

A notebook lists its cells, hands out their numbers, and keeps the clock of requests: adding,
inserting or changing code and asking for a run each take the next tick. Text makes no request.

Numbers run out. A cell is given a number only if one is left for the next cell; a call that would take
the last number is refused. So the counter stays below `CellId.bound`, and what it hands out is new.

`Notebook.apply` carries out a call. A call that is refused leaves the cells and the next number
alone; `Notebook.refusal?` says which calls are refused. Asking for a missing cell still takes a tick.
-/

namespace Recalc

structure Notebook (κ : Type) where
  cells : List (Cell κ)
  nextId : CellId
  clock : Clock

inductive Refusal
  | cellNotFound (id : CellId)
  | duplicateCell (id : CellId)
  | cellIdOverflow (id : CellId)
  deriving DecidableEq, Repr

def Refusal.message : Refusal → String
  | cellNotFound id => "cell not found: " ++ id.display
  | duplicateCell id => "duplicate cell: " ++ id.display
  | cellIdOverflow id => "cell id out of range: " ++ id.display

inductive Call (κ : Type)
  | addCode (source : Compilation κ)
  | addText (body : String)
  | insert (id : CellId) (content : Content κ)
  | updateCode (id : CellId) (source : Compilation κ)
  | requestRun (id : CellId)
  | remove (id : CellId)

namespace Notebook

variable {κ : Type}

def empty : Notebook κ := ⟨[], ⟨0⟩, Clock.start⟩

def ids (nb : Notebook κ) : List CellId := nb.cells.map Cell.id

def cell? (nb : Notebook κ) (id : CellId) : Option (Cell κ) := nb.cells.find? fun c => c.id == id

def contains (nb : Notebook κ) (id : CellId) : Bool := (nb.cell? id).isSome

def codeCells (nb : Notebook κ) : List (Cell κ) := nb.cells.filter Cell.isCode

def codeIds (nb : Notebook κ) : List CellId := nb.codeCells.map Cell.id

def hasCode (nb : Notebook κ) (id : CellId) : Bool := nb.codeIds.contains id

/-- A cell at the end. Code is requested at the next tick, text is never requested. -/
def append (nb : Notebook κ) (id nextId : CellId) : Content κ → Notebook κ
  | .text body => ⟨nb.cells ++ [⟨id, .text body, .earliest⟩], nextId, nb.clock⟩
  | .code source =>
    ⟨nb.cells ++ [⟨id, .code source, nb.clock.advance.now⟩], nextId, nb.clock.advance⟩

/-- Why no cell is given a number: it leaves none for the next cell. -/
def overflow? (id : CellId) : Option Refusal :=
  match id.next? with
  | none => some (.cellIdOverflow id)
  | some _ => none

/-- A cell at the end under a number that no cell has, unless the number leaves none for the next cell.
The counter moves above the number. -/
def push (nb : Notebook κ) (id : CellId) (content : Content κ) : Notebook κ :=
  match id.next? with
  | none => nb
  | some after => nb.append id ⟨max nb.nextId.number after.number⟩ content

def add (nb : Notebook κ) (content : Content κ) : Notebook κ := nb.push nb.nextId content

/-- Why a cell cannot be inserted under a number: the number is taken, or leaves no next one. -/
def insertRefusal? (nb : Notebook κ) (id : CellId) : Option Refusal :=
  if nb.contains id then some (.duplicateCell id) else overflow? id

def insert (nb : Notebook κ) (id : CellId) (content : Content κ) : Notebook κ :=
  if nb.contains id then nb else nb.push id content

def missing? (nb : Notebook κ) (id : CellId) : Option Refusal :=
  if nb.contains id then none else some (.cellNotFound id)

/-- Takes a tick and changes the cell with the given number, requested at that tick. -/
def request (nb : Notebook κ) (id : CellId) (change : Content κ → Content κ) : Notebook κ where
  cells := nb.cells.map fun c =>
    if c.id = id then ⟨c.id, change c.content, nb.clock.advance.now⟩ else c
  nextId := nb.nextId
  clock := nb.clock.advance

def updateCode (nb : Notebook κ) (id : CellId) (source : Compilation κ) : Notebook κ :=
  nb.request id fun _ => .code source

def requestRun (nb : Notebook κ) (id : CellId) : Notebook κ := nb.request id fun content => content

def remove (nb : Notebook κ) (id : CellId) : Notebook κ :=
  { nb with cells := nb.cells.filter fun c => c.id != id }

def refusal? (nb : Notebook κ) : Call κ → Option Refusal
  | .addCode _ => overflow? nb.nextId
  | .addText _ => overflow? nb.nextId
  | .insert id _ => nb.insertRefusal? id
  | .updateCode id _ => nb.missing? id
  | .requestRun id => nb.missing? id
  | .remove id => nb.missing? id

def apply (nb : Notebook κ) : Call κ → Notebook κ
  | .addCode source => nb.add (.code source)
  | .addText body => nb.add (.text body)
  | .insert id content => nb.insert id content
  | .updateCode id source => nb.updateCode id source
  | .requestRun id => nb.requestRun id
  | .remove id => nb.remove id

theorem contains_iff {nb : Notebook κ} {id : CellId} : nb.contains id = true ↔ id ∈ nb.ids := by
  simp [contains, cell?, ids]

theorem mem_codeIds_iff {nb : Notebook κ} {id : CellId} :
    id ∈ nb.codeIds ↔ ∃ c ∈ nb.cells, c.isCode = true ∧ c.id = id := by
  simp [codeIds, codeCells, and_assoc]

theorem hasCode_iff {nb : Notebook κ} {id : CellId} :
    nb.hasCode id = true ↔ id ∈ nb.codeIds := by
  simp [hasCode]

theorem overflow?_eq_none_iff {id : CellId} :
    overflow? id = none ↔ ∃ after, id.next? = some after := by
  rw [overflow?]
  cases id.next? <;> simp

theorem insertRefusal?_eq_none_iff {nb : Notebook κ} {id : CellId} :
    nb.insertRefusal? id = none ↔ id ∉ nb.ids ∧ overflow? id = none := by
  rw [insertRefusal?, ← contains_iff]
  cases nb.contains id <;> simp

theorem push_of_overflow {nb : Notebook κ} {id : CellId} {r : Refusal} (h : overflow? id = some r)
    (content : Content κ) : nb.push id content = nb := by
  rw [overflow?] at h
  rw [push]
  cases hnext : id.next? with
  | none => rfl
  | some after =>
    rw [hnext] at h
    cases h

theorem push_of_next {id after : CellId} (h : id.next? = some after) (nb : Notebook κ)
    (content : Content κ) :
    nb.push id content = nb.append id ⟨max nb.nextId.number after.number⟩ content := by
  rw [push, h]

theorem insert_of_notMem {nb : Notebook κ} {id : CellId} (h : id ∉ nb.ids) (content : Content κ) :
    nb.insert id content = nb.push id content := if_neg (mt contains_iff.mp h)

theorem ids_append (nb : Notebook κ) (id nextId : CellId) (content : Content κ) :
    (nb.append id nextId content).ids = nb.ids ++ [id] := by
  cases content <;> simp [append, ids]

theorem ids_push {id : CellId} (h : overflow? id = none) (nb : Notebook κ) (content : Content κ) :
    (nb.push id content).ids = nb.ids ++ [id] := by
  obtain ⟨after, hnext⟩ := overflow?_eq_none_iff.mp h
  rw [push_of_next hnext, ids_append]

theorem ids_request (nb : Notebook κ) (id : CellId) (change : Content κ → Content κ) :
    (nb.request id change).ids = nb.ids := by
  simp only [ids, request, List.map_map]
  apply List.map_congr_left
  intro c _
  simp only [Function.comp_apply]
  split <;> rfl

theorem ids_remove (nb : Notebook κ) (id : CellId) :
    (nb.remove id).ids = nb.ids.filter fun other => other != id := by
  simp only [ids, remove, List.filter_map]
  rfl

end Notebook

end Recalc
