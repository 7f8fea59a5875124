import Recalc.Proofs.Engine.Quiet

/-!
# Ticks until nothing is stale

While the notebook stays as it is, settling is a row of ticks that goes on until one finds nothing
stale or the limit is reached: a tick that finds something stale always serves something.
-/

namespace Recalc

variable {κ ν : Type}

namespace World

variable {runner : Runner κ ν} {settings : Settings} {w : World κ ν}

def afterTicks (runner : Runner κ ν) (w : World κ ν) : Nat → World κ ν
  | 0 => w
  | n + 1 => (w.move runner .tick).afterTicks runner n

theorem afterTicks_move (n : Nat) :
    (w.move runner .tick).afterTicks runner n = w.afterTicks runner (n + 1) := rfl

theorem afterTicks_succ (n : Nat) :
    w.afterTicks runner (n + 1) = (w.afterTicks runner n).move runner .tick := by
  induction n generalizing w with
  | zero => rfl
  | succ n ih => exact ih

theorem notebook_afterTicks (n : Nat) : (w.afterTicks runner n).notebook = w.notebook := by
  induction n generalizing w with
  | zero => rfl
  | succ n ih => exact ih

theorem Reachable.afterTicks (h : Reachable runner settings w) (n : Nat) :
    Reachable runner settings (w.afterTicks runner n) := by
  induction n generalizing w with
  | zero => exact h
  | succ n ih => exact ih (.move .tick h)

theorem Reachable.settings_eq (h : Reachable runner settings w) : w.engine.settings = settings := by
  induction h with
  | start => rfl
  | @move w m hw ih =>
    cases m with
    | call call => exact ih
    | tick => exact (Engine.settings_tick hw.consistent.valid).trans ih
    | cancelAll => exact ih

theorem madeProgress_of_not_settled (hV : w.notebook.Valid) (h : ¬ w.Settled) :
    (w.engine.tick runner w.notebook).1.madeProgress = true := by
  obtain ⟨v, hv⟩ := List.exists_mem_of_ne_nil _ h
  rw [Tick.madeProgress, Engine.fired_tick, Engine.ran_tick hV, Bool.or_eq_true]
  rcases Choice.ofSurvey_nonempty (w.engine.enrollAll w.notebook).records
    (Plan.sound_draft hV) (fun _ => Survey.mem_order_of_mem_stale) hv with ⟨f, hf⟩ | ⟨r, hr⟩
  · left
    have hfaults : (w.engine.choice w.notebook).faults ≠ [] := List.ne_nil_of_mem hf
    simpa using hfaults
  · right
    have hrunnable : (w.engine.choice w.notebook).runnable = some r := hr
    rw [hrunnable]
    rfl

theorem settleFrom_of_settled (h : w.Settled) (patience ticks : Nat) :
    w.engine.settleFrom runner w.notebook (patience + 1) ticks =
      (.settled ticks, (w.move runner .tick).engine) := by
  have hstop : (w.engine.tick runner w.notebook).1.isSettled = true := isSettled_tick_iff.mpr h
  rw [Engine.settleFrom]
  simp only [hstop, true_or, if_true]
  rfl

/-- After a tick that finds something stale settling goes on, unless that was the last tick allowed. -/
theorem settleFrom_of_not_settled (hV : w.notebook.Valid) (h : ¬ w.Settled)
    (patience ticks : Nat) :
    w.engine.settleFrom runner w.notebook (patience + 1) ticks =
      match (w.move runner .tick).engine.settings.maxTicks with
      | none => (w.move runner .tick).engine.settleFrom runner w.notebook patience (ticks + 1)
      | some limit =>
        if limit ≤ ticks + 1 then (.limitReached limit, (w.move runner .tick).engine)
        else (w.move runner .tick).engine.settleFrom runner w.notebook patience (ticks + 1) := by
  have hgo : ¬ ((w.engine.tick runner w.notebook).1.isSettled = true ∨
      ¬ (w.engine.tick runner w.notebook).1.madeProgress = true) := by
    rintro (hs | hp)
    · exact h (isSettled_tick_iff.mp hs)
    · exact hp (madeProgress_of_not_settled hV h)
  rw [Engine.settleFrom]
  simp only [if_neg hgo]
  rfl

theorem settleFrom_of_no_limit (hV : w.notebook.Valid)
    (hlimit : w.engine.settings.maxTicks = none) (h : ¬ w.Settled) (patience ticks : Nat) :
    w.engine.settleFrom runner w.notebook (patience + 1) ticks =
      (w.move runner .tick).engine.settleFrom runner w.notebook patience (ticks + 1) := by
  have hnone : (w.move runner .tick).engine.settings.maxTicks = none := by
    change (w.engine.tick runner w.notebook).2.settings.maxTicks = none
    rw [Engine.settings_tick hV, hlimit]
  rw [settleFrom_of_not_settled hV h, hnone]

/-- Settling ends at the first tick that finds nothing stale, if the limit leaves room for it. -/
theorem settleFrom_of_room (hw : Reachable runner settings w) {n : Nat}
    (hbefore : ∀ i, i < n → ¬ (w.afterTicks runner i).Settled)
    (hn : (w.afterTicks runner n).Settled) {patience : Nat} (hp : n < patience) (ticks : Nat)
    (hroom : ∀ limit, settings.maxTicks = some limit → n < max (limit - ticks) 1) :
    w.engine.settleFrom runner w.notebook patience ticks =
      (.settled (ticks + n), (w.afterTicks runner (n + 1)).engine) := by
  induction n generalizing w patience ticks with
  | zero =>
    obtain ⟨patience, rfl⟩ := Nat.exists_eq_succ_of_ne_zero (by omega : patience ≠ 0)
    have hfirst : w.Settled := hn
    rw [settleFrom_of_settled hfirst, ← afterTicks_move]
    rfl
  | succ n ih =>
    obtain ⟨patience, rfl⟩ := Nat.exists_eq_succ_of_ne_zero (by omega : patience ≠ 0)
    have hfirst : ¬ w.Settled := hbefore 0 (by omega)
    have hnext : Reachable runner settings (w.move runner .tick) := .move .tick hw
    have hrest := ih hnext (fun i hi => hbefore (i + 1) (by omega)) hn
      (by omega : n < patience) (ticks + 1) fun limit hlimit => by
        have := hroom limit hlimit
        omega
    rw [afterTicks_move, Nat.add_assoc, Nat.add_comm 1 n] at hrest
    rw [settleFrom_of_not_settled hw.consistent.valid hfirst, hnext.settings_eq]
    split
    · exact hrest
    · next limit hlimit =>
      have := hroom limit hlimit
      rw [if_neg (by omega)]
      exact hrest

theorem settleFrom_of_settled_afterTicks (hw : Reachable runner settings w)
    (hlimit : settings.maxTicks = none) {n : Nat}
    (hbefore : ∀ i, i < n → ¬ (w.afterTicks runner i).Settled)
    (hn : (w.afterTicks runner n).Settled) {patience : Nat} (hp : n < patience) (ticks : Nat) :
    w.engine.settleFrom runner w.notebook patience ticks =
      (.settled (ticks + n), (w.afterTicks runner (n + 1)).engine) :=
  settleFrom_of_room hw hbefore hn hp ticks fun limit h => by
    rw [hlimit] at h
    cases h

/-- Settling gives up after the last tick that the limit allows, or after one if it allows none. -/
theorem settleFrom_of_limit (hw : Reachable runner settings w) {limit : Nat}
    (hlimit : settings.maxTicks = some limit) {n : Nat}
    (h : ∀ i, i < n → ¬ (w.afterTicks runner i).Settled) {patience : Nat} (hp : n ≤ patience)
    (ticks : Nat) (hn : n = max (limit - ticks) 1) :
    w.engine.settleFrom runner w.notebook patience ticks =
      (.limitReached limit, (w.afterTicks runner n).engine) := by
  induction n generalizing w patience ticks with
  | zero => omega
  | succ n ih =>
    obtain ⟨patience, rfl⟩ := Nat.exists_eq_succ_of_ne_zero (by omega : patience ≠ 0)
    have hnext : Reachable runner settings (w.move runner .tick) := .move .tick hw
    rw [settleFrom_of_not_settled hw.consistent.valid (h 0 (by omega)), hnext.settings_eq, hlimit]
    dsimp only
    split
    · next hle =>
      obtain rfl : n = 0 := by omega
      rfl
    · next hle =>
      rw [← afterTicks_move]
      exact ih hnext (fun i hi => h (i + 1) (by omega)) (by omega) (ticks + 1) (by omega)

/-- If no tick finds nothing stale, settling goes on until the caller's patience is at an end. -/
theorem settleFrom_of_not_settled_afterTicks (hw : Reachable runner settings w)
    (hlimit : settings.maxTicks = none) (h : ∀ i, ¬ (w.afterTicks runner i).Settled)
    (patience ticks : Nat) :
    w.engine.settleFrom runner w.notebook patience ticks =
      (.unfinished, (w.afterTicks runner patience).engine) := by
  induction patience generalizing w ticks with
  | zero => rfl
  | succ patience ih =>
    rw [settleFrom_of_no_limit hw.consistent.valid (hw.settings_eq ▸ hlimit) (h 0)]
    exact ih (.move .tick hw) (fun i => h (i + 1)) (ticks + 1)

end World

end Recalc
