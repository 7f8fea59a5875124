import Recalc.Choice

/-!
# The engine

The engine keeps a record for every code cell, a clock of its own, and the tokens of its runs. It
also keeps two logs, latest entry first: the events that tell observers of every change of a record,
and the requests that were handed to the runner.
-/

namespace Recalc

inductive Event (ν : Type)
  | created (snapshot : Snapshot ν)
  | updated (snapshot : Snapshot ν)
  | removed (id : CellId)

def Event.id {ν : Type} : Event ν → CellId
  | created s => s.id
  | updated s => s.id
  | removed id => id

/-- A run that the runner is asked for. -/
structure Request (κ ν : Type) where
  cell : CellId
  code : κ
  inputs : Bindings ν
  token : Token
  /-- Whether the run had been cancelled when it was handed over. -/
  cancelled : Bool

/-- A runner gives the bindings of a run, or the message it threw. -/
abbrev Runner (κ ν : Type) := Request κ ν → Except String (Bindings ν)

structure Settings where
  /-- How many ticks may be spent on settling. -/
  maxTicks : Option Nat
  /-- How many events are kept for observers. -/
  eventCapacity : Nat
  deriving DecidableEq, Repr

/-- No limit, and room for 256 events. -/
def Settings.standard : Settings := ⟨none, 256⟩

structure Engine (κ ν : Type) where
  settings : Settings
  records : Records ν
  clock : Clock
  tokens : Tokens
  requests : List (Request κ ν)
  events : List (Event ν)

namespace Engine

variable {κ ν : Type}

def start (settings : Settings) : Engine κ ν where
  settings := settings
  records := ∅
  clock := Clock.start
  tokens := Tokens.start
  requests := []
  events := []

def now (e : Engine κ ν) : Time := e.clock.now

def snapshot? (e : Engine κ ν) (id : CellId) : Option (Snapshot ν) :=
  (e.records.get? id).map fun r => r.snapshot id

def snapshots (e : Engine κ ν) : List (Snapshot ν) :=
  e.records.entries.map fun p => p.2.snapshot p.1

def emit (e : Engine κ ν) (event : Event ν) : Engine κ ν := { e with events := event :: e.events }

/-- Sets a record and tells observers. -/
def store (e : Engine κ ν) (id : CellId) (r : Record ν) : Engine κ ν :=
  { e with records := e.records.insert id r }.emit (.updated (r.snapshot id))

/-- Opens a record for a cell that has none. -/
def enroll (e : Engine κ ν) (id : CellId) : Engine κ ν :=
  if e.records.contains id then e
  else
    let r := Record.fresh e.tokens.fresh
    { e with records := e.records.insert id r, tokens := e.tokens.issue }.emit
      (.created (r.snapshot id))

/-- Cancels the run of a cell and drops its record. -/
def discharge (e : Engine κ ν) (id : CellId) : Engine κ ν :=
  match e.records.get? id with
  | none => e
  | some r =>
    { e with records := e.records.erase id, tokens := e.tokens.cancel r.token }.emit (.removed id)

def setWaiting (e : Engine κ ν) (id : CellId) (waiting : Bool) : Engine κ ν :=
  match e.records.get? id with
  | none => e
  | some r => if r.waiting = waiting then e else e.store id { r with waiting := waiting }

/-- The cells with a record that a node reads from. -/
def consulted (e : Engine κ ν) (node : Node) : List CellId :=
  node.inputIds.filter e.records.contains

/-- The value that an input of a node brings in, by the records. -/
def valueOf? (e : Engine κ ν) (source : CellId) (name : Name) : Option ν :=
  (e.records.get? source).bind fun r => r.exported.get? name

/-- The values of the names that a node imports. Of several values for one name the one from the
last arc counts. -/
def inputsOf (e : Engine κ ν) (node : Node) : Bindings ν :=
  node.inputs.foldl
    (fun inputs p =>
      match e.valueOf? p.1 p.2.input with
      | some v => inputs.insert p.2.input v
      | none => inputs)
    ∅

def complete (e : Engine κ ν) (id : CellId) (answered : Time) (consulted : List CellId)
    (result : Result ν) : Engine κ ν :=
  match e.records.get? id with
  | none => e
  | some r => e.store id (r.complete answered e.now consulted result)

/-- Gives a faulty cell its fault as result. -/
def fire (e : Engine κ ν) (f : Faulty) : Engine κ ν :=
  e.complete f.node.id f.requested (e.consulted f.node) (.threw f.fault)

/-- The request for a run of a cell, under a new token. -/
def requestFor (e : Engine κ ν) (r : Runnable κ) : Request κ ν where
  cell := r.node.id
  code := r.code
  inputs := e.inputsOf r.node
  token := e.tokens.fresh
  cancelled := e.tokens.isCancelled e.tokens.fresh

def resultOf (answer : Except String (Bindings ν)) : Result ν :=
  match answer with
  | .ok bindings => .returned (some bindings)
  | .error message => .threw (.runtime message)

/-- Hands a cell to the runner. The run before it is cancelled, and observers see the cell running
before they see its result. -/
def launch (runner : Runner κ ν) (e : Engine κ ν) (r : Runnable κ) : Engine κ ν :=
  match e.records.get? r.node.id with
  | none => e
  | some record =>
    let tokens := e.tokens.cancel record.token
    let request := { e with tokens := tokens }.requestFor r
    let started :=
      { e with tokens := tokens.issue, requests := request :: e.requests }.store r.node.id
        (record.start request.token)
    started.complete r.node.id r.requested (e.consulted r.node) (resultOf (runner request))

def cancelAll (e : Engine κ ν) : Engine κ ν :=
  { e with tokens := e.records.values.foldl (fun ts r => ts.cancel r.token) e.tokens }

end Engine

end Recalc
