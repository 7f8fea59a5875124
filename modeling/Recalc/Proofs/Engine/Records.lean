import Recalc.Proofs.Engine.Events
import Recalc.Proofs.Engine.Tokens

/-!
# The records of an engine

A tick leaves a record for exactly the code cells of the notebook, none of them running, and marks as
waiting what it found stale and did not serve. It touches nothing else in the records that it does not
serve (`get?_tick_of_not_serves`). The times of a record go forward for as long as it is kept, the
request that it answers is never ahead of the cell, and no two runs are completed at the same
time (`records_after_tick`).
-/

namespace Recalc

open scoped Time

variable {κ ν : Type}

def Record.wait (r : Record ν) (waiting : Bool) : Record ν := { r with waiting := waiting }

namespace Engine

variable {runner : Runner κ ν} {e : Engine κ ν} {nb : Notebook κ} {id j : CellId} {r : Record ν}

theorem get?_enroll_of_get? (h : e.records.get? id = some r) (j : CellId) :
    (e.enroll j).records.get? id = some r := by
  by_cases hj : id = j
  · subst hj
    rw [enroll, if_pos (contains_of_get? h)]
    exact h
  · rw [get?_enroll_of_ne hj]
    exact h

theorem get?_enrollAll_of_get? (h : e.records.get? id = some r) (nb : Notebook κ) :
    (e.enrollAll nb).records.get? id = some r := by
  rw [enrollAll]
  generalize nb.codeIds = ids
  induction ids generalizing e with
  | nil => exact h
  | cons j rest ih => exact ih (get?_enroll_of_get? h j)

theorem get?_setWaiting (e : Engine κ ν) (id j : CellId) (waiting : Bool) :
    (e.setWaiting id waiting).records.get? j =
      if j = id then (e.records.get? j).map (Record.wait · waiting) else e.records.get? j := by
  rw [setWaiting]
  split
  · next hnone =>
    split
    · next hj => rw [hj, hnone, Option.map_none]
    · rfl
  · next r hr =>
    by_cases hj : j = id
    · subst hj
      rw [if_pos rfl, hr, Option.map_some]
      split
      · next hsame => rw [hr, Record.wait, ← hsame]
      · exact get?_store_self
    · rw [if_neg hj]
      split
      · rfl
      · exact get?_store_of_ne hj

theorem get?_foldl_setWaiting (f : CellId → Bool) (ids : List CellId) (e : Engine κ ν)
    (id : CellId) :
    (ids.foldl (fun e id => e.setWaiting id (f id)) e).records.get? id =
      if id ∈ ids then (e.records.get? id).map (Record.wait · (f id)) else e.records.get? id := by
  induction ids generalizing e with
  | nil => rfl
  | cons j rest ih =>
    rw [List.foldl_cons, ih, get?_setWaiting]
    by_cases hj : id = j
    · subst hj
      -- a mark that is set again stays as it is
      have htwice : ((e.records.get? id).map (Record.wait · (f id))).map (Record.wait · (f id)) =
          (e.records.get? id).map (Record.wait · (f id)) := by
        rw [Option.map_map]
        rfl
      rw [if_pos rfl, htwice, ite_self, if_pos List.mem_cons_self]
    · simp only [hj, if_false, List.mem_cons, false_or]

theorem mustWait_iff {survey : Survey} {choice : Choice κ} :
    mustWait survey choice id = true ↔ id ∈ survey.stale ∧
      (∀ f ∈ choice.faults, f.node.id ≠ id) ∧
        ∀ r, choice.runnable = some r → r.node.id ≠ id := by
  rw [mustWait]
  cases choice.runnable <;> simp [Survey.isStale, and_assoc]

theorem get?_marked (hV : nb.Valid) (hid : id ∈ nb.codeIds) :
    (e.marked nb).records.get? id = ((e.enrollAll nb).records.get? id).map
      (Record.wait · (mustWait (e.survey nb) (e.choice nb) id)) := by
  rw [marked, markWaiting, get?_foldl_setWaiting, if_pos ((Plan.mem_order_draft_iff hV).mpr hid)]
  exact congrArg _ (get?_kept.trans (if_pos hid))

theorem get?_complete_of_ne {answered : Time} {consulted : List CellId} {result : Result ν}
    (h : j ≠ id) :
    (e.complete id answered consulted result).records.get? j = e.records.get? j := by
  rw [complete]
  split
  · rfl
  · exact get?_store_of_ne h

theorem get?_foldl_fire_of_ne {fs : List Faulty} (h : ∀ f ∈ fs, f.node.id ≠ id) :
    (fs.foldl fire e).records.get? id = e.records.get? id :=
  foldl_invariant_of_mem (fun e : Engine κ ν => e.records.get? id)
    (fun f hf _ => get?_complete_of_ne (h f hf).symm) e

theorem get?_launch_of_ne (runner : Runner κ ν) {r : Runnable κ} (h : id ≠ r.node.id) :
    (e.launch runner r).records.get? id = e.records.get? id := by
  cases hr : e.records.get? r.node.id with
  | none => rw [launch, hr]
  | some record =>
    rw [launch_of_get? runner hr]
    exact (get?_store_of_ne h).trans (get?_store_of_ne h)

/-- Of the record of a cell that is not served a tick sets the mark only. -/
theorem get?_tick_of_not_serves (runner : Runner κ ν) (hV : nb.Valid) (hid : id ∈ nb.codeIds)
    (h : ¬ e.Serves nb id) :
    (e.tick runner nb).2.records.get? id = ((e.enrollAll nb).records.get? id).map
      (Record.wait · (decide (id ∈ (e.survey nb).stale))) := by
  obtain ⟨hfaults, hrun⟩ := not_serves_iff.mp h
  have hmark : mustWait (e.survey nb) (e.choice nb) id =
      decide (id ∈ (e.survey nb).stale) := by
    rw [Bool.eq_iff_iff, mustWait_iff, decide_eq_true_iff, and_iff_left ⟨hfaults, hrun⟩]
  have hbefore : (e.beforeRun nb).records.get? id = (e.marked nb).records.get? id :=
    get?_foldl_fire_of_ne hfaults
  rw [← hmark, ← get?_marked hV hid, ← hbefore, snd_tick, launchChosen]
  split
  · rfl
  · next r hr => exact get?_launch_of_ne runner (hrun r hr).symm

/-- A cell has a record and does not wait. -/
def Rested (e : Engine κ ν) (id : CellId) : Prop :=
  ∃ r, e.records.get? id = some r ∧ r.waiting = false

theorem Rested.fire (h : e.Rested id) (f : Faulty) : (e.fire f).Rested id := by
  obtain ⟨r, hr, hwaiting⟩ := h
  by_cases hid : id = f.node.id
  · subst hid
    rw [Engine.fire, complete_of_get? hr]
    exact ⟨_, get?_store_self, rfl⟩
  · exact ⟨r, (get?_complete_of_ne hid).trans hr, hwaiting⟩

theorem Rested.foldl_fire (h : e.Rested id) (fs : List Faulty) : (fs.foldl Engine.fire e).Rested id := by
  induction fs generalizing e with
  | nil => exact h
  | cons f rest ih => exact ih (h.fire f)

theorem rested_fire {f : Faulty} (h : e.records.contains f.node.id = true) :
    (e.fire f).Rested f.node.id := by
  obtain ⟨r, hr⟩ := Option.isSome_iff_exists.mp h
  rw [fire, complete_of_get? hr]
  exact ⟨_, get?_store_self, rfl⟩

theorem rested_beforeRun (hV : nb.Valid) {f : Faulty} (hf : f ∈ (e.choice nb).faults) :
    (e.beforeRun nb).Rested f.node.id := by
  obtain ⟨before, after, hsplit⟩ := List.append_of_mem hf
  have hid : f.node.id ∈ nb.codeIds :=
    mem_codeIds_of_mem_entries hV (Plan.mem_faults_iff.mp (mem_faults_choice_iff.mp hf).1)
  rw [beforeRun, hsplit, List.foldl_append, List.foldl_cons]
  refine (rested_fire ?_).foldl_fire after
  rw [contains_foldl_fire]
  exact contains_marked.mpr hid

theorem rested_tick_of_serves (runner : Runner κ ν) (hV : nb.Valid) (h : e.Serves nb id) :
    (e.tick runner nb).2.Rested id := by
  rw [snd_tick, launchChosen]
  rcases h with ⟨f, hf, rfl⟩ | ⟨r, hr, rfl⟩
  · obtain ⟨record, hrecord, hwaiting⟩ := rested_beforeRun hV hf
    split
    · exact ⟨record, hrecord, hwaiting⟩
    · next r hr =>
      have hne := (not_faulty_of_runnable hV hr hf).symm
      exact ⟨record, (get?_launch_of_ne runner hne).trans hrecord, hwaiting⟩
  · obtain ⟨record, hrecord⟩ := Option.isSome_iff_exists.mp (contains_beforeRun.mpr
      (mem_codeIds_of_mem_entries hV (mem_entries_of_runnable hr)))
    rw [hr]
    dsimp only
    rw [launch_of_get? runner hrecord]
    exact ⟨_, get?_store_self, rfl⟩

theorem serves_iff (runner : Runner κ ν) (hV : nb.Valid) : e.Serves nb id ↔
    id ∈ (e.tick runner nb).1.fired ∨ (e.tick runner nb).1.ran = some id := by
  rw [fired_tick, ran_tick hV, List.mem_map, Option.map_eq_some_iff]
  rfl

theorem waiting_tick_iff (runner : Runner κ ν) (hV : nb.Valid) (hid : id ∈ nb.codeIds)
    (hr : (e.tick runner nb).2.records.get? id = some r) :
    r.waiting = true ↔ id ∈ (e.survey nb).stale ∧ ¬ e.Serves nb id := by
  by_cases hserves : e.Serves nb id
  · obtain ⟨record, hrecord, hwaiting⟩ := rested_tick_of_serves runner hV hserves
    rw [hr, Option.some.injEq] at hrecord
    simp [hrecord, hwaiting, hserves]
  · rw [get?_tick_of_not_serves runner hV hid hserves] at hr
    obtain ⟨record, _, rfl⟩ := Option.map_eq_some_iff.mp hr
    simp [Record.wait, hserves]

theorem result_tick_of_serves (runner : Runner κ ν) (hV : nb.Valid) (h : e.Serves nb id) :
    ((e.tick runner nb).2.imprint id).result ≠ .returned none := by
  rcases h with ⟨f, hf, rfl⟩ | ⟨r, hr, rfl⟩
  · rw [imprint_tick_faulty hV hf]
    exact fun h => nomatch h
  · obtain ⟨request, _, _, _, _, himprint⟩ := imprint_tick_runnable runner hV hr
    rw [himprint]
    change resultOf (runner request) ≠ .returned none
    cases runner request <;> simp [resultOf]

end Engine

namespace World

variable {runner : Runner κ ν} {settings : Settings} {w : World κ ν} {id : CellId}

/-- A record that has been used answers a request, at a tick, with a result, from distinct cells. -/
theorem Reachable.blank_or_used (hw : Reachable runner settings w) (id : CellId) :
    w.engine.imprint id = .blank ∨
      .earliest < (w.engine.imprint id).computed ∧ .earliest < (w.engine.imprint id).answered ∧
        (w.engine.imprint id).result ≠ .returned none ∧
          (w.engine.imprint id).consulted.Nodup := by
  by_cases hblank : w.engine.imprint id = .blank
  · exact Or.inl hblank
  right
  obtain ⟨w₀, hlast⟩ := exists_last_run hw hblank
  have hV := hlast.reachable.consistent.valid
  obtain ⟨x, hx, _, result, hspec⟩ := Engine.served_spec runner hV hlast.serves
  obtain ⟨c, hc, source, _, rfl⟩ := (Plan.mem_entries_iff hV).mp hx
  have himprint : (w₀.move runner .tick).engine.imprint id = _ := hspec
  have hresult : ((w₀.move runner .tick).engine.imprint id).result ≠ .returned none :=
    Engine.result_tick_of_serves runner hV hlast.serves
  rw [hlast.imprint_eq]
  refine ⟨?_, ?_, hresult, ?_⟩ <;> rw [himprint]
  · exact Clock.earliest_lt_now_advance _
  · change .earliest < (Plan.entryAt w₀.notebook c source).requested
    rw [Plan.requested_entryAt]
    exact hV.requested_pos c hc
  · exact nodup_eraseDups _

/-- No record answers a request that its cell has not made. -/
theorem Reachable.answered_le (hw : Reachable runner settings w) :
    ∀ c ∈ w.notebook.codeCells, (w.engine.imprint c.id).answered ≤ c.requested := by
  induction hw with
  | start => exact fun _ h => nomatch h
  | @move w m hw ih =>
    cases m with
    | cancelAll => exact ih
    | call call =>
      intro c hc
      cases le_or_gt c.requested w.notebook.clock.now with
      | inl hle => exact ih c ((Notebook.continues_apply w.notebook call).mem_past hc hle)
      | inr hlt => exact le_trans (hw.consistent.answered_le c.id) (le_of_lt hlt)
    | tick =>
      intro c hc
      have hV := hw.consistent.valid
      rcases imprint_tick_cases runner hV c.id with ⟨_, x, hx, hid, _, himprint⟩ | himprint | himprint
      · obtain ⟨d, hd, source, _, rfl⟩ := (Plan.mem_entries_iff hV).mp hx
        rw [Plan.id_entryAt] at hid
        rw [himprint, hV.eq_of_id_eq hc hd hid.symm]
        exact le_of_eq (Plan.requested_entryAt _ _ _)
      · rw [himprint]
        exact Time.earliest_le _
      · rw [himprint]
        exact ih c hc

theorem computed_le_tick (runner : Runner κ ν) (hw : w.Consistent) (hid : id ∈ w.notebook.codeIds) :
    (w.engine.imprint id).computed ≤ ((w.move runner .tick).engine.imprint id).computed := by
  by_cases hserves : w.engine.Serves w.notebook id
  · obtain ⟨_, _, _, _, himprint⟩ := Engine.served_spec runner hw.valid hserves
    have hafter : ((w.move runner .tick).engine.imprint id).computed = _ :=
      congrArg Record.computed himprint
    rw [hafter]
    exact le_of_lt (Clock.lt_now_advance_of_le (hw.computed_le id))
  · exact le_of_eq (congrArg Record.computed
      (Engine.imprint_tick_of_not_serves hw.valid hid hserves).symm)

/-- A cell has a record all along a row of moves. -/
def Lives (runner : Runner κ ν) (w : World κ ν) (moves : List (Move κ)) (id : CellId) : Prop :=
  ∀ before after, moves = before ++ after →
    (w.play runner before).engine.records.contains id = true

theorem Lives.computed_le {moves : List (Move κ)} (hw : w.Consistent)
    (h : w.Lives runner moves id) :
    (w.engine.imprint id).computed ≤ ((w.play runner moves).engine.imprint id).computed := by
  induction moves generalizing w with
  | nil => exact le_rfl
  | cons m rest ih =>
    have hrest : (w.move runner m).Lives runner rest id :=
      fun before after hsplit => h (m :: before) after (congrArg (m :: ·) hsplit)
    refine le_trans ?_ (ih (hw.move runner m) hrest)
    cases m with
    | call call => exact le_rfl
    | cancelAll => exact le_rfl
    | tick =>
      exact computed_le_tick runner hw
        ((Engine.contains_tick runner hw.valid).mp (hrest [] rest rfl))

/-! ## The times of runs -/

/-- The requests that have been made since an earlier moment, latest first. -/
def requestsSince (past w : World κ ν) : List (Request κ ν) :=
  w.engine.requests.take (w.engine.requests.length - past.engine.requests.length)

/-- The requests of a row of moves in order, each with the time at which the record of its cell was
completed. -/
def runs (runner : Runner κ ν) (w : World κ ν) : List (Move κ) → List (Request κ ν × Time)
  | [] => []
  | m :: rest =>
    let later := w.move runner m
    (requestsSince w later).reverse.map
        (fun q => (q, (Survey.recordOf later.engine.records q.cell).computed)) ++
      later.runs runner rest

theorem requestsSince_move (runner : Runner κ ν) (hw : Reachable runner settings w) (m : Move κ) :
    (requestsSince w (w.move runner m) = [] ∧
        (w.move runner m).engine.requests = w.engine.requests) ∨
      m = .tick ∧ ∃ q, requestsSince w (w.move runner m) = [q] ∧
        (w.move runner m).engine.requests = q :: w.engine.requests ∧
        ((w.move runner m).engine.imprint q.cell).computed = w.engine.clock.advance.now := by
  rcases requests_move runner hw m with hsame | ⟨rfl, q, hq⟩
  · exact Or.inl ⟨by simp [requestsSince, hsame], hsame⟩
  · have hrequests : (w.move runner .tick).engine.requests = q :: w.engine.requests := hq.requests
    refine Or.inr ⟨rfl, q, by simp [requestsSince, hrequests], hrequests, ?_⟩
    have hV := hw.consistent.valid
    obtain ⟨_, _, _, _, himprint⟩ := Engine.served_spec runner hV
      ((Engine.serves_iff runner hV).mpr (Or.inr hq.ran))
    exact congrArg Record.computed himprint

theorem now_le_move (runner : Runner κ ν) (hw : w.Consistent) (m : Move κ) :
    w.engine.now ≤ (w.move runner m).engine.now :=
  Later.now_le (.single ⟨m, rfl⟩) hw

theorem lt_of_mem_runs (hw : Reachable runner settings w) {moves : List (Move κ)} :
    ∀ p ∈ w.runs runner moves, w.engine.now < p.2 := by
  induction moves generalizing w with
  | nil => exact fun _ h => nomatch h
  | cons m rest ih =>
    intro p hp
    rcases List.mem_append.mp hp with hp | hp
    · rcases requestsSince_move runner hw m with ⟨hnone, _⟩ | ⟨rfl, q, hq, _, hcomputed⟩
      · rw [hnone] at hp
        cases hp
      · rw [hq] at hp
        rw [List.mem_singleton.mp hp]
        exact lt_of_lt_of_eq w.engine.clock.now_lt_now_advance hcomputed.symm
    · exact lt_of_le_of_lt (now_le_move runner hw.consistent m) (ih (.move m hw) p hp)

theorem pairwise_runs (hw : Reachable runner settings w) (moves : List (Move κ)) :
    (w.runs runner moves).Pairwise fun p q => p.2 < q.2 := by
  induction moves generalizing w with
  | nil => exact .nil
  | cons m rest ih =>
    rw [runs]
    rcases requestsSince_move runner hw m with ⟨hnone, _⟩ | ⟨rfl, q, hq, _, hcomputed⟩
    · rw [hnone]
      exact ih (.move m hw)
    · rw [hq]
      refine List.pairwise_cons.mpr ⟨fun p hp => ?_, ih (.move .tick hw)⟩
      have hlt := lt_of_mem_runs (.move .tick hw) p hp
      rw [now_tick runner hw.consistent.valid] at hlt
      exact lt_of_eq_of_lt hcomputed hlt

theorem requests_play (hw : Reachable runner settings w) (moves : List (Move κ)) :
    (w.play runner moves).engine.requests.reverse =
      w.engine.requests.reverse ++ (w.runs runner moves).map Prod.fst := by
  induction moves generalizing w with
  | nil => exact (List.append_nil _).symm
  | cons m rest ih =>
    refine (ih (.move m hw)).trans ?_
    rw [runs, List.map_append, ← List.append_assoc]
    congr 1
    rcases requestsSince_move runner hw m with ⟨hnone, hsame⟩ | ⟨rfl, q, hq, hcons, _⟩
    · rw [hnone, hsame]
      simp
    · rw [hq, hcons]
      simp

/-! ## After a tick -/

/-- The record of a code cell after a tick. -/
structure Kept (now : Time) (c : Cell κ) (r : Record ν) : Prop where
  running : r.running = false
  computed_le : r.computed ≤ now
  answered_le : r.answered ≤ c.requested
  computed_eq_iff : r.computed = .earliest ↔ r.result = .returned none
  answered_eq_iff : r.answered = .earliest ↔ r.result = .returned none
  returned : ∀ bindings, r.result = .returned (some bindings) →
    r.exported = bindings.filter fun name _ => name != Name.default
  returned_none : r.result = .returned none → r.exported = ∅
  threw : ∀ fault, r.result = .threw fault → r.exported = ∅
  consulted : r.consulted.Nodup

theorem kept_tick (hw : Reachable runner settings w) {c : Cell κ} (hc : c ∈ w.notebook.codeCells)
    {r : Record ν} (hr : (w.move runner .tick).engine.records.get? c.id = some r) :
    Kept (w.move runner .tick).engine.now c r := by
  have hV := hw.consistent.valid
  have hw' : Reachable runner settings (w.move runner .tick) := .move .tick hw
  have himprint : (w.move runner .tick).engine.imprint c.id = r.imprint :=
    Engine.imprint_of_get? hr
  have hused := hw'.blank_or_used c.id
  have hexported := hw'.consistent.exported_eq c.id
  have hcomputed := hw'.consistent.computed_le c.id
  have hanswered := hw'.answered_le c hc
  rw [himprint] at hused hexported hcomputed hanswered
  have hexported : r.exported = r.result.exported := hexported
  refine ⟨?_, hcomputed, hanswered, ?_, ?_, ?_, ?_, ?_, ?_⟩
  · exact Engine.running_of_idle (hw'.tells.idle Observed.idle_empty) hr
  · rcases hused with hblank | ⟨hpos, _, hresult, _⟩
    · exact iff_of_true (congrArg Record.computed hblank) (congrArg Record.result hblank)
    · exact iff_of_false (ne_of_gt hpos) hresult
  · rcases hused with hblank | ⟨_, hpos, hresult, _⟩
    · exact iff_of_true (congrArg Record.answered hblank) (congrArg Record.result hblank)
    · exact iff_of_false (ne_of_gt hpos) hresult
  · intro bindings hreturned
    rw [hexported, hreturned]
    rfl
  · intro hreturned
    rw [hexported, hreturned]
    rfl
  · intro fault hthrew
    rw [hexported, hthrew]
    rfl
  · rcases hused with hblank | ⟨_, _, _, hnodup⟩
    · rw [show r.consulted = [] from congrArg Record.consulted hblank]
      exact List.nodup_nil
    · exact hnodup

theorem waits_after_tick_iff (hw : Reachable runner settings w) (id : CellId) :
    (∃ r, (w.move runner .tick).engine.records.get? id = some r ∧ r.waiting = true) ↔
      id ∈ (w.report runner).stale ∧ id ∉ (w.report runner).fired ∧
        (w.report runner).ran ≠ some id := by
  have hV := hw.consistent.valid
  have hwaiting (hid : id ∈ w.notebook.codeIds) {r : Record ν}
      (hr : (w.move runner .tick).engine.records.get? id = some r) :
      r.waiting = true ↔ id ∈ (w.report runner).stale ∧ id ∉ (w.report runner).fired ∧
        (w.report runner).ran ≠ some id := by
    rw [Engine.waiting_tick_iff runner hV hid hr, Engine.serves_iff runner hV, not_or]
    rfl
  constructor
  · rintro ⟨r, hr, hwait⟩
    have hid := (Engine.contains_tick runner hV).mp (Engine.contains_of_get? hr)
    exact (hwaiting hid hr).mp hwait
  · intro h
    have hid : id ∈ w.notebook.codeIds :=
      (Plan.mem_order_draft_iff hV).mp (Survey.mem_order_of_mem_stale h.1)
    obtain ⟨r, hr, _⟩ := Engine.exists_record_tick runner hV hid
    exact ⟨r, hr, (hwaiting hid hr).mpr h⟩

theorem get?_tick_of_untouched (hw : Reachable runner settings w) {r : Record ν}
    (hr : w.engine.records.get? id = some r) (hfired : id ∉ (w.report runner).fired)
    (hran : (w.report runner).ran ≠ some id) (hremoved : id ∉ (w.report runner).removed) :
    ∃ waiting, (w.move runner .tick).engine.records.get? id = some (r.wait waiting) := by
  have hV := hw.consistent.valid
  have henrolled := Engine.get?_enrollAll_of_get? hr w.notebook
  have hid : id ∈ w.notebook.codeIds := by
    by_contra hid
    refine hremoved (List.mem_filter.mpr ⟨?_, ?_⟩)
    · exact (Table.mem_keys_iff _).mpr (Engine.contains_of_get? henrolled)
    · simpa [Notebook.hasCode] using hid
  have hserves : ¬ w.engine.Serves w.notebook id := fun hserves =>
    ((Engine.serves_iff runner hV).mp hserves).elim hfired hran
  refine ⟨decide (id ∈ (w.engine.survey w.notebook).stale),
    (Engine.get?_tick_of_not_serves runner hV hid hserves).trans ?_⟩
  rw [henrolled, Option.map_some]

/-- After every tick of every history exactly the code cells have records, each of them `Kept`, and the
cells that wait are those found stale and not served. A record that the tick neither served nor
dropped differs from what it was in its mark only, the time of a record does not go back while the
record lives, and the runs of the history were completed at ascending times. -/
theorem records_after_tick (runner : Runner κ ν) (settings : Settings) (moves : List (Move κ)) :
    let w := (start settings).play runner moves
    let t := w.report runner
    let e := (w.move runner .tick).engine
    (∀ id, e.records.contains id = true ↔ id ∈ w.notebook.codeIds) ∧
      (∀ c ∈ w.notebook.codeCells, ∃ r, e.records.get? c.id = some r ∧ Kept e.now c r) ∧
      (∀ id, (∃ r, e.records.get? id = some r ∧ r.waiting = true) ↔
        id ∈ t.stale ∧ id ∉ t.fired ∧ t.ran ≠ some id) ∧
      (∀ id r, w.engine.records.get? id = some r → id ∉ t.fired → t.ran ≠ some id →
        id ∉ t.removed → ∃ waiting, e.records.get? id = some { r with waiting := waiting }) ∧
      (∀ more id, w.Lives runner more id → ∃ r r', w.engine.records.get? id = some r ∧
        (w.play runner more).engine.records.get? id = some r' ∧ r.computed ≤ r'.computed) ∧
      ((start settings).runs runner moves).map Prod.fst = w.engine.requests.reverse ∧
      ((start settings).runs runner moves).Pairwise fun p q => p.2 < q.2 := by
  intro w t e
  have hw : Reachable runner settings w := reachable_iff_play.mpr ⟨moves, rfl⟩
  have hV := hw.consistent.valid
  refine ⟨fun id => Engine.contains_tick runner hV, fun c hc => ?_, waits_after_tick_iff hw,
    fun id r hr hfired hran hremoved => get?_tick_of_untouched hw hr hfired hran hremoved,
    fun more id hlives => ?_, (requests_play .start moves).symm, pairwise_runs .start moves⟩
  · obtain ⟨r, hr, _⟩ := Engine.exists_record_tick runner hV (List.mem_map_of_mem hc)
    exact ⟨r, hr, kept_tick hw hc hr⟩
  · obtain ⟨r, hr⟩ := Option.isSome_iff_exists.mp
      (show w.engine.records.contains id = true from hlives [] more rfl)
    obtain ⟨r', hr'⟩ := Option.isSome_iff_exists.mp (hlives more [] (List.append_nil more).symm)
    have hle := hlives.computed_le hw.consistent
    rw [Engine.imprint_of_get? hr, Engine.imprint_of_get? hr'] at hle
    exact ⟨r, r', hr, hr', hle⟩

end World

end Recalc
