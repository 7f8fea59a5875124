import Recalc.Survey

/-!
# What runs next

All stale faulty cells are served at once. Of the stale cells that can run, one is chosen that reads
from no other of them: the first, unless another has been asked to run, and at a later time.
-/

namespace Recalc

structure Choice (κ : Type) where
  faults : List Faulty
  runnable : Option (Runnable κ)
  deriving DecidableEq, Repr

namespace Choice

variable {κ ν : Type}

def isEmpty (c : Choice κ) : Bool := c.faults.isEmpty && c.runnable.isNone

/-- Whether a cell is stale and reads from no stale cell that can run. -/
def isCandidate (plan : Plan κ) (survey : Survey) (r : Runnable κ) : Bool :=
  survey.isStale r.node.id &&
    !r.node.inputIds.any fun id => survey.isStale id && (plan.runnable? id).isSome

/-- Whether a cell has a request that its last run did not answer. -/
def hasRequest (records : Records ν) (r : Runnable κ) : Bool :=
  r.requested != (Survey.recordOf records r.node.id).answered

/-- The current choice, or a candidate asked to run at a later time. -/
def prefer (records : Records ν) (current candidate : Runnable κ) : Runnable κ :=
  if hasRequest records candidate ∧ current.requested < candidate.requested then candidate
  else current

def ofSurvey (plan : Plan κ) (survey : Survey) (records : Records ν) : Choice κ where
  faults := plan.faults.filter fun f => survey.isStale f.node.id
  runnable :=
    match plan.runnables.filter (isCandidate plan survey) with
    | [] => none
    | first :: rest => some (rest.foldl (prefer records) first)

end Choice

end Recalc
