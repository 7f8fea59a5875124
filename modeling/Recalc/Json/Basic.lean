import Recalc.Double.Basic

/-!
# JSON values

Whole numbers and doubles are different values. The members of an object keep their order, and the
members as read may repeat a name: `collapse` leaves each name at its first place with its last
value.
-/

namespace Recalc

inductive Json
  | null
  | bool (b : Bool)
  | int (n : Int)
  | double (d : Double)
  | string (s : String)
  | array (items : List Json)
  | object (members : List (String × Json))
  deriving Repr, Inhabited

namespace Json

def bool? : Json → Option Bool
  | bool b => some b
  | _ => none

def string? : Json → Option String
  | string s => some s
  | _ => none

/-- A natural number of at most 64 bits. -/
def nat? : Json → Option Nat
  | int n => if 0 ≤ n ∧ n < Nat.pow 2 64 then some n.toNat else none
  | _ => none

def array? : Json → Option (List Json)
  | array items => some items
  | _ => none

def object? : Json → Option (List (String × Json))
  | object members => some members
  | _ => none

def get? (name : String) : Json → Option Json
  | object members => members.lookup name
  | _ => none

def nat (n : Nat) : Json := int n

def ofString? : Option String → Json
  | some s => string s
  | none => null

/-- Members with the value of one name set: an old name keeps its place, a new one goes last. -/
def setMember (name : String) (value : Json) : List (String × Json) → List (String × Json)
  | [] => [(name, value)]
  | m :: rest => if m.1 = name then (name, value) :: rest else m :: setMember name value rest

theorem lookup_setMember_self (name : String) (value : Json) (l : List (String × Json)) :
    (setMember name value l).lookup name = some value := by
  induction l with
  | nil => simp [setMember]
  | cons m rest ih =>
    obtain ⟨other, old⟩ := m
    rw [setMember]
    split
    · simp
    · next h => simp [List.lookup_cons, beq_false_of_ne (Ne.symm h), ih]

mutual

/-- Each name of each object once, at its first place and with its last value. -/
def collapse : Json → Json
  | array items => array (collapseItems items)
  | object members => object (collapseMembers [] members)
  | v => v

def collapseItems : List Json → List Json
  | [] => []
  | v :: rest => v.collapse :: collapseItems rest

def collapseMembers (done : List (String × Json)) : List (String × Json) → List (String × Json)
  | [] => done
  | (name, v) :: rest => collapseMembers (setMember name v.collapse done) rest

end

def sortMembers (members : List (String × Json)) : List (String × Json) :=
  members.mergeSort fun p q => decide (p.1 ≤ q.1)

mutual

/-- The members of each object in the order of their names. -/
def sortKeys : Json → Json
  | array items => array (sortKeysItems items)
  | object members => object (sortMembers (sortKeysMembers members))
  | v => v

def sortKeysItems : List Json → List Json
  | [] => []
  | v :: rest => v.sortKeys :: sortKeysItems rest

def sortKeysMembers : List (String × Json) → List (String × Json)
  | [] => []
  | (name, v) :: rest => (name, v.sortKeys) :: sortKeysMembers rest

end

end Json

end Recalc
