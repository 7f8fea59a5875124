import Recalc.Engine.Basic

/-!
# Following events

A feed is a place in the log of events. It delivers the events after that place in order. Only the
last events are kept, as many as the capacity rounded up to a power of two; a feed that has fallen
behind first says how many events it missed.
-/

namespace Recalc

inductive Delivery (ν : Type)
  | event (event : Event ν)
  | lagged (missed : Nat)

/-- A feed has taken in this many events of the log. -/
structure Feed where
  position : Nat
  deriving DecidableEq, Repr

namespace Feed

variable {κ ν : Type}

def kept (capacity : Nat) : Nat := (max 1 capacity).nextPowerOfTwo

def subscribe (e : Engine κ ν) : Feed := ⟨e.events.length⟩

/-- What a feed delivers from a log, latest event first. -/
def deliveries (capacity : Nat) (log : List (Event ν)) (feed : Feed) : List (Delivery ν) :=
  let pending := log.length - feed.position
  let missed := pending - kept capacity
  let events := (log.take (pending - missed)).reverse.map Delivery.event
  if missed = 0 then events else .lagged missed :: events

def drain (e : Engine κ ν) (feed : Feed) : List (Delivery ν) × Feed :=
  (deliveries e.settings.eventCapacity e.events feed, subscribe e)

end Feed

end Recalc
