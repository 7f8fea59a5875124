import Recalc.Plan
import Recalc.Record

/-!
# What is stale

Every entry of a plan is due at a time: at `latest` if it has been asked to run since its last run,
otherwise at the newest time of its last run, its inputs, and the inputs its last run used. An input
that was used and has been deleted or is no longer linked is due at `latest`: the graph does not show
it any more, and its reader has to run again. An entry is stale if it is due later than its last run.

The faulty entries are visited a second time, because on a cycle one can stand before its input.
-/

namespace Recalc

structure Survey where
  /-- When the entries visited so far are due, the last visit first. -/
  visits : List (CellId × Time)
  stale : List CellId
  deriving DecidableEq, Repr

namespace Survey

variable {κ ν : Type}

def start : Survey := ⟨[], []⟩

def due? (s : Survey) (id : CellId) : Option Time := s.visits.lookup id

def isStale (s : Survey) (id : CellId) : Bool := s.stale.contains id

def isEmpty (s : Survey) : Bool := s.stale.isEmpty

def inputTime (s : Survey) (id : CellId) : Time := (s.due? id).getD .earliest

/-- The time of an input that the last run used. -/
def usedTime (records : Records ν) (node : Node) (s : Survey) (id : CellId) : Time :=
  if records.contains id then
    match s.due? id with
    | some t => t
    | none => if node.reads id then .earliest else .latest
  else .latest

/-- When an entry is due, by its record if it has one. -/
def dueTime (records : Records ν) (s : Survey) (node : Node) (requested : Time)
    (record : Record ν) : Time :=
  if record.answered < requested then .latest
  else
    Time.newest
      (record.computed ::
        (node.inputIds.map s.inputTime ++ record.consulted.map (usedTime records node s)))

/-- The record of a cell, or that of a cell that has never run. -/
def recordOf (records : Records ν) (id : CellId) : Record ν :=
  (records.get? id).getD (Record.fresh ⟨0⟩)

def visit (records : Records ν) (s : Survey) (e : Entry κ) : Survey :=
  let record := recordOf records e.id
  let due := dueTime records s e.node e.requested record
  { visits := (e.id, due) :: s.visits
    stale := if record.computed < due ∧ e.id ∉ s.stale then s.stale ++ [e.id] else s.stale }

/-- A survey of all entries, and then of the faulty ones again. -/
def ofPlan (plan : Plan κ) (records : Records ν) : Survey :=
  (plan.entries ++ plan.faults.map Entry.faulty).foldl (visit records) start

end Survey

end Recalc
