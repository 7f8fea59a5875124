import Recalc.Proofs.Engine.Quiet
import Recalc.Proofs.Engine.Records

/-!
# The newest open request

In a reachable world no record answers a request that its cell has not made, whichever numbers have
been removed and inserted again and whatever text has become code. So a request differs from the one
that was answered last only if it came later, and the cell that is chosen to run has the newest open
request of all that may run, or is the first of them.
-/

namespace Recalc

open scoped Time

namespace World

variable {κ ν : Type} {runner : Runner κ ν} {settings : Settings} {w : World κ ν}

theorem hasRequest_iff (hw : Reachable runner settings w) {r : Runnable κ}
    (hr : r ∈ (Plan.draft w.notebook).runnables) :
    Choice.hasRequest (w.engine.enrollAll w.notebook).records r = true ↔
      Choice.IsOpen (w.engine.enrollAll w.notebook).records r := by
  obtain ⟨c, hc, source, _, he⟩ :=
    (Plan.mem_entries_iff hw.consistent.valid).mp (Plan.mem_runnables_iff.mp hr)
  have hid : r.node.id = c.id := (congrArg Entry.id he).trans (Plan.id_entryAt _ _ _)
  have hrequested : r.requested = c.requested :=
    (congrArg Entry.requested he).trans (Plan.requested_entryAt _ _ _)
  have hle : (w.engine.imprint c.id).answered ≤ c.requested := hw.answered_le c hc
  rw [Choice.hasRequest, Choice.IsOpen, hid, Engine.answered_recordOf, hrequested, bne_iff_ne,
    lt_iff_le_and_ne, ne_comm]
  exact ⟨fun hne => ⟨hle, hne⟩, And.right⟩

/-- Whatever survey of the plan it goes by, a choice holds the stale faulty cells in the order of the
plan, and a cell to run if and only if one that can run is stale. That cell is eligible, and no eligible
cell has a newer open request. It is the first of them unless it has an open request that is newer than
that of the first. A request is open, i.e. newer than the answered one, if and only if it is another. -/
theorem newest_open_request_runs (runner : Runner κ ν) (settings : Settings)
    (moves : List (Move κ)) (survey : Survey) :
    let w := (start settings).play runner moves
    let plan := Plan.draft w.notebook
    let records := (w.engine.enrollAll w.notebook).records
    let choice := Choice.ofSurvey plan survey records
    (∀ r ∈ plan.runnables, Choice.hasRequest records r = true ↔ Choice.IsOpen records r) ∧
    (choice.faults.map fun f => f.node.id) =
      plan.order.filter (fun id => survey.isStale id && (plan.faulty? id).isSome) ∧
    (choice.runnable = none ↔ ∀ id ∈ survey.stale, ¬ plan.CanRun id) ∧
    ∀ r, choice.runnable = some r →
      Choice.Eligible plan survey r ∧
      (∀ c, Choice.Eligible plan survey c → Choice.IsOpen records c →
        c.requested ≤ r.requested) ∧
      ∃ first, Choice.Eligible plan survey first ∧
        (∀ c, Choice.Eligible plan survey c →
          plan.order.idxOf first.node.id ≤ plan.order.idxOf c.node.id) ∧
        (r = first ∨ Choice.IsOpen records r ∧ first.requested < r.requested) := by
  intro w plan records choice
  have hw : Reachable runner settings w := reachable_iff_play.mpr ⟨moves, rfl⟩
  have hP : plan.Sound := Plan.sound_draft hw.consistent.valid
  exact ⟨fun r hr => hasRequest_iff hw hr, Choice.faults_ofSurvey_eq_filter records hP,
    Choice.runnable_ofSurvey_eq_none_iff records hP,
    fun r hr => Choice.newest_of_runnable_ofSurvey hP (fun r hr => hasRequest_iff hw hr) hr⟩

/-- Two readers of a cell that has run again, the second of them asked to run after a fourth cell. The
first reader has no open request and stands first; the second is chosen. -/
theorem newest_open_request_overtakes :
    let runner : Runner Nat Nat := fun q => pairAnswer q.cell q.code q.inputs
    let moves : List (Move Nat) := [
      .call (.addCode (pairSource [] ["a"] 1)), .call (.addCode (pairSource ["a"] ["b"] 2)),
      .call (.addCode (pairSource ["a"] ["c"] 3)), .call (.addCode (pairSource [] ["d"] 4)),
      .tick, .tick, .tick, .tick, .call (.requestRun ⟨0⟩), .tick,
      .call (.requestRun ⟨3⟩), .call (.requestRun ⟨2⟩)]
    let w := (start Settings.standard).play runner moves
    let plan := Plan.draft w.notebook
    let survey := w.engine.survey w.notebook
    let records := (w.engine.enrollAll w.notebook).records
    (w.engine.choice w.notebook).runnable.map (fun r => r.node.id) = some ⟨2⟩ ∧
      survey.stale = [⟨1⟩, ⟨2⟩, ⟨3⟩] ∧
      ∀ c, Choice.Eligible plan survey c → Choice.IsOpen records c → c.requested ≤ .tick 7 := by
  intro runner moves w plan survey records
  have hid : (w.engine.choice w.notebook).runnable.map (fun r => r.node.id) = some ⟨2⟩ := by
    decide +kernel
  have hrequested : (w.engine.choice w.notebook).runnable.map Runnable.requested =
      some (.tick 7) := by
    decide +kernel
  obtain ⟨r, hr, _⟩ := Option.map_eq_some_iff.mp hid
  have hnewest := ((newest_open_request_runs runner Settings.standard moves survey).2.2.2 r hr).2.1
  rw [hr, Option.map_some, Option.some.injEq] at hrequested
  exact ⟨hid, by decide +kernel, hrequested ▸ hnewest⟩

end World

end Recalc
