import Recalc.Engine.Basic

/-!
# Ticks

A tick opens records for new cells, surveys the plan of the notebook, and chooses; then it drops the
records of deleted cells, marks the stale cells that have to wait, serves the faulty ones and runs
one cell. Ticks are repeated until one finds nothing stale.
-/

namespace Recalc

structure Tick where
  time : Time
  stale : List CellId
  fired : List CellId
  ran : Option CellId
  removed : List CellId
  deriving DecidableEq, Repr

def Tick.isSettled (t : Tick) : Bool := t.stale.isEmpty

def Tick.madeProgress (t : Tick) : Bool := !t.fired.isEmpty || t.ran.isSome

inductive Settling
  | settled (ticks : Nat)
  | limitReached (maxTicks : Nat)
  /-- The caller's patience was at an end. -/
  | unfinished
  deriving DecidableEq, Repr

def Settling.limitMessage (maxTicks : Nat) : String :=
  s!"notebook did not settle within {maxTicks} ticks"

namespace Engine

variable {κ ν : Type}

def enrollAll (e : Engine κ ν) (nb : Notebook κ) : Engine κ ν := nb.codeIds.foldl enroll e

/-- The records of cells that the notebook does not have as code. -/
def orphans (e : Engine κ ν) (nb : Notebook κ) : List CellId :=
  e.records.keys.filter fun id => !nb.hasCode id

def mustWait (survey : Survey) (choice : Choice κ) (id : CellId) : Bool :=
  survey.isStale id && !(choice.faults.any fun f => f.node.id == id) &&
    !(choice.runnable.any fun r => r.node.id == id)

def markWaiting (e : Engine κ ν) (plan : Plan κ) (survey : Survey) (choice : Choice κ) :
    Engine κ ν :=
  plan.order.foldl (fun e id => e.setWaiting id (mustWait survey choice id)) e

def launchChosen (runner : Runner κ ν) (e : Engine κ ν) (choice : Choice κ) : Engine κ ν :=
  match choice.runnable with
  | none => e
  | some r => e.launch runner r

/-- The chosen cell, if it has a record to run on. -/
def launched (e : Engine κ ν) (choice : Choice κ) : Option CellId :=
  (choice.runnable.map fun r => r.node.id).filter e.records.contains

def tick (runner : Runner κ ν) (nb : Notebook κ) (e : Engine κ ν) : Tick × Engine κ ν :=
  let enrolled := e.enrollAll nb
  let plan := Plan.draft nb
  let survey := Survey.ofPlan plan enrolled.records
  let choice := Choice.ofSurvey plan survey enrolled.records
  let removed := enrolled.orphans nb
  let kept := removed.foldl discharge enrolled
  let marked := { kept with clock := kept.clock.advance }.markWaiting plan survey choice
  let fired := choice.faults.foldl fire marked
  let report :=
    { time := marked.now
      stale := survey.stale
      fired := choice.faults.map fun f => f.node.id
      ran := fired.launched choice
      removed := removed }
  (report, fired.launchChosen runner choice)

/-- Ticks until one finds nothing stale, can do nothing, or reaches the limit. The first number is the
patience of the caller; the second counts the ticks that did something. -/
def settleFrom (runner : Runner κ ν) (nb : Notebook κ) :
    Nat → Nat → Engine κ ν → Settling × Engine κ ν
  | 0, _, e => (.unfinished, e)
  | patience + 1, ticks, e =>
    let (t, e) := e.tick runner nb
    if t.isSettled ∨ ¬ t.madeProgress then (.settled ticks, e)
    else
      match e.settings.maxTicks with
      | none => settleFrom runner nb patience (ticks + 1) e
      | some limit =>
        if limit ≤ ticks + 1 then (.limitReached limit, e)
        else settleFrom runner nb patience (ticks + 1) e

def settle (runner : Runner κ ν) (nb : Notebook κ) (patience : Nat) (e : Engine κ ν) :
    Settling × Engine κ ν :=
  settleFrom runner nb patience 0 e

end Engine

end Recalc
