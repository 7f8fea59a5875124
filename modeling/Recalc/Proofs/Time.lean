import Mathlib.Logic.Basic
import Mathlib.Order.Defs.LinearOrder
import Recalc.Time

/-!
# The order of times

Times are linearly ordered, and the newest of a list is at most a bound if and only if all members
are. The order is an instance where the namespace `Time` is opened.
-/

namespace Recalc

namespace Time

scoped instance linearOrder : LinearOrder Time where
  le_refl := Time.le_refl
  le_trans _ _ _ := Time.le_trans
  le_antisymm _ _ := Time.le_antisymm
  le_total := Time.le_total
  lt_iff_le_not_ge s t :=
    ⟨fun h => ⟨(Time.le_total s t).resolve_right h, h⟩, fun h => h.2⟩
  max_def := max_eq
  toDecidableLE := decidableLe
  toDecidableLT := decidableLt

theorem latest_le_iff {t : Time} : latest ≤ t ↔ t = latest :=
  ⟨fun h => Time.le_antisymm (le_latest t) h, fun h => h ▸ Time.le_refl t⟩

theorem lt_latest_iff {t : Time} : t < latest ↔ t ≠ latest := by
  rw [lt_iff_not_le, latest_le_iff]

theorem lt_newest_iff {ts : List Time} {u : Time} : u < newest ts ↔ ∃ t ∈ ts, u < t := by
  simp only [lt_iff_not_le, newest_le_iff, not_forall, exists_prop]

end Time

namespace Clock

open scoped Time

theorem now_le_now_iff {c d : Clock} : c.now ≤ d.now ↔ c.ticks ≤ d.ticks := by
  rw [now, now]
  split
  · next hc => simp [hc]
  · next hc =>
    split
    · next hd => simp [hd, hc]
    · exact Iff.rfl

theorem now_ne_latest (c : Clock) : c.now ≠ .latest := by
  rw [now]
  split <;> simp

theorem lt_now_advance_of_le {c : Clock} {t : Time} (h : t ≤ c.now) : t < c.advance.now :=
  lt_of_le_of_lt h c.now_lt_now_advance

theorem earliest_lt_now_advance (c : Clock) : .earliest < c.advance.now :=
  lt_now_advance_of_le (Time.earliest_le _)

end Clock

end Recalc
