import Recalc.Fault
import Recalc.Table
import Recalc.Time
import Recalc.Token

/-!
# Records of runs

For every code cell the engine records what its last run produced and when, and what it was computed
from. A snapshot is the part of a record that is shown to observers.
-/

namespace Recalc

/-- Values by name. -/
abbrev Bindings (ν : Type) := Table Name ν

inductive Result (ν : Type)
  /-- The bindings of a run, or nothing if there was no run yet. -/
  | returned (bindings : Option (Bindings ν))
  | threw (fault : Fault)
  deriving DecidableEq

namespace Result

variable {ν : Type}

/-- The result before the first run. -/
def notRun : Result ν := returned none

def isThrow : Result ν → Bool
  | returned _ => false
  | threw _ => true

def bindings? : Result ν → Option (Bindings ν)
  | returned bindings => bindings
  | threw _ => none

def fault? : Result ν → Option Fault
  | returned _ => none
  | threw fault => some fault

/-- What other cells may read: the bindings without the one for display. -/
def exported (r : Result ν) : Bindings ν :=
  match r.bindings? with
  | some bindings => bindings.filter fun name _ => name != Name.default
  | none => ∅

end Result

inductive Status
  | idle
  | waiting
  | running
  | success
  | error
  deriving DecidableEq, Repr

structure Snapshot (ν : Type) where
  id : CellId
  answered : Time
  computed : Time
  running : Bool
  waiting : Bool
  result : Result ν

namespace Snapshot

variable {ν : Type}

def status (s : Snapshot ν) : Status :=
  if s.running then .running
  else if s.waiting then .waiting
  else if s.computed = .earliest then .idle
  else if s.result.isThrow then .error
  else .success

end Snapshot

structure Record (ν : Type) where
  /-- The request that the last run answered. -/
  answered : Time
  /-- The tick at which the last run was completed. -/
  computed : Time
  running : Bool
  waiting : Bool
  result : Result ν
  exported : Bindings ν
  /-- The cells whose records the last run consulted. -/
  consulted : List CellId
  /-- The token of the current or most recent run. -/
  token : Token

abbrev Records (ν : Type) := Table CellId (Record ν)

namespace Record

variable {ν : Type}

/-- The record of a cell that has never run. -/
def fresh (token : Token) : Record ν where
  answered := .earliest
  computed := .earliest
  running := false
  waiting := false
  result := .notRun
  exported := ∅
  consulted := []
  token := token

def snapshot (r : Record ν) (id : CellId) : Snapshot ν where
  id := id
  answered := r.answered
  computed := r.computed
  running := r.running
  waiting := r.waiting
  result := r.result

def status (r : Record ν) (id : CellId) : Status := (r.snapshot id).status

/-- The record after a run that answered a request at a tick. -/
def complete (r : Record ν) (answered computed : Time) (consulted : List CellId)
    (result : Result ν) : Record ν where
  answered := answered
  computed := computed
  running := false
  waiting := false
  result := result
  exported := result.exported
  consulted := consulted
  token := r.token

/-- The record of a cell handed over to run. -/
def start (r : Record ν) (token : Token) : Record ν :=
  { r with running := true, waiting := false, token := token }

end Record

end Recalc
