/-!
# Cancelling runs

A run is given a token. Whoever holds the token, or a copy of it, can cancel the run, and the run can
see that it has been cancelled. Nothing takes a cancellation back.
-/

namespace Recalc

structure Token where
  index : Nat
  deriving DecidableEq, Repr

/-- The tokens given out so far, and those among them that have been cancelled. -/
structure Tokens where
  issued : Nat
  cancelled : List Token
  deriving DecidableEq, Repr

namespace Tokens

def start : Tokens := ⟨0, []⟩

/-- The token that comes next. -/
def fresh (ts : Tokens) : Token := ⟨ts.issued⟩

def issue (ts : Tokens) : Tokens := { ts with issued := ts.issued + 1 }

def cancel (ts : Tokens) (t : Token) : Tokens := { ts with cancelled := t :: ts.cancelled }

def isCancelled (ts : Tokens) (t : Token) : Bool := ts.cancelled.contains t

@[simp] theorem isCancelled_start (t : Token) : start.isCancelled t = false := rfl

@[simp] theorem isCancelled_issue (ts : Tokens) (t : Token) :
    ts.issue.isCancelled t = ts.isCancelled t := rfl

theorem isCancelled_cancel_iff {ts : Tokens} {s t : Token} :
    (ts.cancel s).isCancelled t = true ↔ t = s ∨ ts.isCancelled t = true := by
  simp [cancel, isCancelled]

end Tokens

end Recalc
