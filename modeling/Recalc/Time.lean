/-!
# Logical time

Requests and runs are stamped with ticks of a clock. Two ends are added to the ticks: a time before
all of them, for what has never happened, and a time after all of them, for what has to happen
whatever ran before. The order is linear, and `latest` is its join on lists.
-/

namespace Recalc

inductive Time
  | earliest
  | tick (n : Nat)
  | latest
  deriving DecidableEq, Repr, Inhabited

namespace Time

protected def le : Time → Time → Prop
  | earliest, _ => True
  | _, latest => True
  | tick m, tick n => m ≤ n
  | _, _ => False

instance : LE Time := ⟨Time.le⟩

instance : LT Time := ⟨fun s t => ¬ t ≤ s⟩

instance decidableLe : (s t : Time) → Decidable (s ≤ t)
  | earliest, _ => isTrue (by simp [LE.le, Time.le])
  | tick _, earliest => isFalse (by simp [LE.le, Time.le])
  | tick m, tick n => inferInstanceAs (Decidable (m ≤ n))
  | tick _, latest => isTrue (by simp [LE.le, Time.le])
  | latest, earliest => isFalse (by simp [LE.le, Time.le])
  | latest, tick _ => isFalse (by simp [LE.le, Time.le])
  | latest, latest => isTrue (by simp [LE.le, Time.le])

instance decidableLt (s t : Time) : Decidable (s < t) :=
  inferInstanceAs (Decidable (¬ t ≤ s))

instance : Max Time := ⟨fun s t => if s ≤ t then t else s⟩

@[simp] theorem earliest_le (t : Time) : earliest ≤ t := by
  cases t <;> trivial

@[simp] theorem le_latest (t : Time) : t ≤ latest := by
  cases t <;> trivial

@[simp] theorem tick_le_tick_iff {m n : Nat} : tick m ≤ tick n ↔ m ≤ n := Iff.rfl

@[simp] theorem not_tick_le_earliest (n : Nat) : ¬ tick n ≤ earliest := fun h => h

@[simp] theorem not_latest_le_tick (n : Nat) : ¬ latest ≤ tick n := fun h => h

@[simp] theorem not_latest_le_earliest : ¬ latest ≤ earliest := fun h => h

theorem lt_iff_not_le {s t : Time} : s < t ↔ ¬ t ≤ s := Iff.rfl

protected theorem le_refl (t : Time) : t ≤ t := by
  cases t <;> simp

protected theorem le_trans {r s t : Time} (hrs : r ≤ s) (hst : s ≤ t) : r ≤ t := by
  cases r <;> cases s <;> cases t <;> simp_all
  exact Nat.le_trans hrs hst

protected theorem le_total (s t : Time) : s ≤ t ∨ t ≤ s := by
  cases s <;> cases t <;> simp
  exact Nat.le_total _ _

protected theorem le_antisymm {s t : Time} (hst : s ≤ t) (hts : t ≤ s) : s = t := by
  cases s <;> cases t <;> simp_all
  exact Nat.le_antisymm hst hts

theorem max_eq (s t : Time) : max s t = if s ≤ t then t else s := rfl

theorem max_le_iff {r s t : Time} : max r s ≤ t ↔ r ≤ t ∧ s ≤ t := by
  rw [max_eq]
  split
  · next h => exact ⟨fun hs => ⟨Time.le_trans h hs, hs⟩, And.right⟩
  · next h =>
    have hsr : s ≤ r := (Time.le_total r s).resolve_left h
    exact ⟨fun hr => ⟨hr, Time.le_trans hsr hr⟩, And.left⟩

theorem le_max_left (s t : Time) : s ≤ max s t := (max_le_iff.mp (Time.le_refl _)).1

theorem le_max_right (s t : Time) : t ≤ max s t := (max_le_iff.mp (Time.le_refl _)).2

/-- The newest time of a list, `earliest` if there is none. -/
def newest : List Time → Time
  | [] => earliest
  | t :: rest => max t (newest rest)

theorem newest_le_iff {ts : List Time} {u : Time} : newest ts ≤ u ↔ ∀ t ∈ ts, t ≤ u := by
  induction ts with
  | nil => simp [newest, earliest_le]
  | cons t rest ih => simp [newest, max_le_iff, ih]

theorem le_newest {ts : List Time} {t : Time} (h : t ∈ ts) : t ≤ newest ts :=
  newest_le_iff.mp (Time.le_refl _) t h

theorem newest_eq_earliest_or_mem (ts : List Time) : newest ts = earliest ∨ newest ts ∈ ts := by
  induction ts with
  | nil => exact Or.inl rfl
  | cons t rest ih =>
    rw [newest, max_eq]
    split
    · exact ih.imp id (List.mem_cons_of_mem t)
    · exact Or.inr List.mem_cons_self

/-- Ascending order of a list of times; equal times keep their places. -/
def sort (ts : List Time) : List Time :=
  ts.mergeSort fun s t => decide (s ≤ t)

def display : Time → String
  | earliest => "-inf"
  | tick n => toString n
  | latest => "+inf"

end Time

/-- A clock that has given out the ticks `1`, …, `ticks`. -/
structure Clock where
  ticks : Nat
  deriving DecidableEq, Repr

namespace Clock

def start : Clock := ⟨0⟩

def now (c : Clock) : Time :=
  if c.ticks = 0 then .earliest else .tick c.ticks

def advance (c : Clock) : Clock := ⟨c.ticks + 1⟩

theorem now_advance (c : Clock) : c.advance.now = .tick (c.ticks + 1) := rfl

theorem now_lt_now_advance (c : Clock) : c.now < c.advance.now := by
  rw [now_advance, now]
  split
  · simp [Time.lt_iff_not_le]
  · simp [Time.lt_iff_not_le]

end Clock

end Recalc
