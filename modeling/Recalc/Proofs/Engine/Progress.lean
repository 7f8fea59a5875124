import Recalc.Proofs.Engine.Events
import Recalc.Proofs.Engine.Settling

/-!
# A tick is never stuck

Whatever the records are, a survey of a notebook that finds something stale leads to a choice. In a
reachable world a tick carries out all that it has chosen: every faulty cell of the choice gets its
fault, the chosen cell reaches the runner, and both still have their records, which are dropped only
for cells that the plan does not list. So settling ends with a tick that finds nothing stale, or at
its limit.
-/

namespace Recalc

open scoped Time

variable {κ ν : Type}

namespace Engine

variable {runner : Runner κ ν} {e : Engine κ ν} {nb : Notebook κ} {id : CellId}

/-- A cell has the record of a run that is over. -/
def Finished (e : Engine κ ν) (id : CellId) (answered computed : Time) (result : Result ν) : Prop :=
  ∃ record, e.records.get? id = some record ∧ record.running = false ∧
    record.answered = answered ∧ record.computed = computed ∧ record.result = result

/-- What a tick does with its choice. -/
structure CarriesOut (runner : Runner κ ν) (nb : Notebook κ) (e : Engine κ ν) : Prop where
  progress : (e.tick runner nb).1.stale ≠ [] → (e.tick runner nb).1.madeProgress = true
  fired : (e.tick runner nb).1.fired = (e.choice nb).faults.map fun f => f.node.id
  faulty : ∀ f ∈ (e.choice nb).faults, (Plan.draft nb).faulty? f.node.id = some f ∧
    (e.tick runner nb).2.Finished f.node.id f.requested (e.tick runner nb).1.time (.threw f.fault)
  ran : (e.tick runner nb).1.ran = (e.choice nb).runnable.map fun r => r.node.id
  runnable : ∀ r, (e.choice nb).runnable = some r → (Plan.draft nb).runnable? r.node.id = some r ∧
    ∃ request : Request κ ν, (e.tick runner nb).2.requests = request :: e.requests ∧
      request.cell = r.node.id ∧ request.code = r.code ∧
      (e.tick runner nb).2.Finished r.node.id r.requested (e.tick runner nb).1.time
        (resultOf (runner request))

theorem time_tick : (e.tick runner nb).1.time = e.clock.advance.now := now_marked

theorem finished_of_imprint {answered computed : Time} {consulted : List CellId}
    {result : Result ν} (hid : e.records.contains id = true) (hidle : Observed.Idle e.shown)
    (h : e.imprint id = .completed answered computed consulted result) :
    e.Finished id answered computed result := by
  obtain ⟨record, hrecord⟩ := Option.isSome_iff_exists.mp hid
  rw [imprint_of_get? hrecord] at h
  exact ⟨record, hrecord, running_of_idle hidle hrecord, congrArg Record.answered h,
    congrArg Record.computed h, congrArg Record.result h⟩

end Engine

namespace World

open Engine

variable {runner : Runner κ ν} {settings : Settings} {w : World κ ν} {e : Engine κ ν}

theorem carriesOut (hw : Reachable runner settings w) :
    CarriesOut runner w.notebook w.engine := by
  have hV := hw.consistent.valid
  have hP := Plan.sound_draft hV
  have hidle : Observed.Idle (w.engine.tick runner w.notebook).2.shown :=
    (Reachable.move .tick hw).tells.idle Observed.idle_empty
  have hrecord : ∀ x ∈ (Plan.draft w.notebook).entries,
      (w.engine.tick runner w.notebook).2.records.contains x.id = true := fun x hx =>
    (contains_tick runner hV).mpr (mem_codeIds_of_mem_entries hV hx)
  refine ⟨fun hstale => madeProgress_of_not_settled hV hstale, fired_tick, fun f hf => ?_,
    ran_tick hV, fun r hr => ?_⟩
  · have hx := Plan.mem_faults_iff.mp (mem_faults_choice_iff.mp hf).1
    have hfind : (Plan.draft w.notebook).find? f.node.id = some (.faulty f) :=
      hP.find?_eq_some_iff.mpr ⟨hx, rfl⟩
    rw [time_tick, Plan.faulty?, hfind]
    exact ⟨rfl, finished_of_imprint (hrecord _ hx) hidle (imprint_tick_faulty hV hf)⟩
  · have hx := mem_entries_of_runnable hr
    obtain ⟨request, hcell, hcode, _, hrequests, himprint⟩ := imprint_tick_runnable runner hV hr
    have hfind : (Plan.draft w.notebook).find? r.node.id = some (.runnable r) :=
      hP.find?_eq_some_iff.mpr ⟨hx, rfl⟩
    rw [time_tick, Plan.runnable?, hfind]
    exact ⟨rfl, request, hrequests, hcell, hcode,
      finished_of_imprint (hrecord _ hx) hidle himprint⟩

/-- Settling that ends before its limit has seen as many ticks as it counts find something stale, and
then one that found nothing. -/
theorem settled_of_settleFrom (hw : Reachable runner settings w) {patience ticks n : Nat}
    (h : w.engine.settleFrom runner w.notebook patience ticks = (.settled n, e)) :
    ∃ k, n = ticks + k ∧ (∀ i, i < k → ¬ (w.afterTicks runner i).Settled) ∧
      (w.afterTicks runner k).Settled ∧ e = (w.afterTicks runner (k + 1)).engine := by
  induction patience generalizing w ticks with
  | zero => cases h
  | succ patience ih =>
    by_cases hsettled : w.Settled
    · rw [settleFrom_of_settled hsettled] at h
      cases h
      exact ⟨0, rfl, fun i hi => absurd hi (Nat.not_lt_zero i), hsettled, rfl⟩
    · rw [settleFrom_of_not_settled hw.consistent.valid hsettled] at h
      have hnext : (w.move runner .tick).engine.settleFrom runner w.notebook patience (ticks + 1) =
          (.settled n, e) := by
        split at h
        · exact h
        · split at h
          · cases h
          · exact h
      obtain ⟨k, rfl, hbefore, hlast, he⟩ := ih (.move .tick hw) hnext
      rw [afterTicks_move] at hlast he
      refine ⟨k + 1, by omega, fun i hi => ?_, hlast, he⟩
      cases i with
      | zero => exact hsettled
      | succ i =>
        rw [← afterTicks_move]
        exact hbefore i (by omega)

/-- A survey that finds something stale leads to a choice, whatever the records are. In a reachable world
the tick carries its choice out, and settling that ends before its limit ends with a tick that finds
nothing stale. -/
theorem never_stuck (runner : Runner κ ν) (settings : Settings) :
    (∀ (calls : List (Call κ)) (records : Records ν),
      let plan := Plan.draft (Notebook.empty.replay calls)
      let survey := Survey.ofPlan plan records
      survey.stale ≠ [] → (Choice.ofSurvey plan survey records).isEmpty = false) ∧
    ∀ moves : List (Move κ),
      let w := (start settings).play runner moves
      CarriesOut runner w.notebook w.engine ∧
      ∀ patience ticks e, w.engine.settle runner w.notebook patience = (.settled ticks, e) →
        (∀ i < ticks, ((w.afterTicks runner i).engine.tick runner w.notebook).1.stale ≠ []) ∧
        ((w.afterTicks runner ticks).engine.tick runner w.notebook).1.stale = [] ∧
        ((w.afterTicks runner ticks).engine.tick runner w.notebook).2 = e := by
  constructor
  · intro calls records plan survey hstale
    have hP : plan.Sound := Plan.sound_draft (Notebook.valid_empty.replay calls)
    obtain ⟨v, hv⟩ := List.exists_mem_of_ne_nil _ hstale
    rcases Choice.ofSurvey_nonempty records hP (fun _ => Survey.mem_order_of_mem_stale) hv with
      ⟨f, hf⟩ | ⟨r, hr⟩
    · rw [Choice.isEmpty, List.isEmpty_eq_false_iff.mpr (List.ne_nil_of_mem hf), Bool.false_and]
    · rw [Choice.isEmpty, hr, Option.isNone_some, Bool.and_false]
  · intro moves w
    have hw : Reachable runner settings w := reachable_iff_play.mpr ⟨moves, rfl⟩
    refine ⟨carriesOut hw, fun patience ticks e h => ?_⟩
    obtain ⟨k, hk, hbefore, hlast, he⟩ := settled_of_settleFrom hw h
    obtain rfl : ticks = k := hk.trans (Nat.zero_add k)
    rw [afterTicks_succ] at he
    have hnotebook : ∀ i, (w.afterTicks runner i).notebook = w.notebook := notebook_afterTicks
    refine ⟨fun i hi => ?_, ?_, ?_⟩
    · rw [← hnotebook i]
      exact hbefore i hi
    · rw [← hnotebook ticks]
      exact hlast
    · rw [he, ← hnotebook ticks]
      rfl

end World

end Recalc
