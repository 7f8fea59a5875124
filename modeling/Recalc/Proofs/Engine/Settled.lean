import Recalc.Proofs.Engine.Records
import Recalc.Proofs.Engine.Termination

/-!
# After nothing was stale

A tick that finds nothing stale serves no cell. It drops the records of deleted cells, takes the marks
off the cells that wait, and keeps all else (`Settles`); the ticks after it find the records in place
and unmarked, and move the clock only (`settled_tick_changes_nothing`).

The tick surveys the records before those of deleted cells are dropped, the next one afterwards. This
makes no difference, because an input that the plan does not list forces a run either way
(`survey_eq_of_get?`).
-/

namespace Recalc

open scoped Time

variable {κ ν : Type}

namespace Engine

variable {runner : Runner κ ν} {e : Engine κ ν} {nb : Notebook κ} {id : CellId}

theorem agree_of_imprint (hV : nb.Valid) {records records' : Records ν}
    (h : ∀ id ∈ nb.codeIds, records.contains id = records'.contains id ∧
      (Survey.recordOf records id).imprint = (Survey.recordOf records' id).imprint) :
    Survey.Agree (Plan.draft nb) records records' := by
  have hcode : ∀ id ∈ (Plan.draft nb).order, records.contains id = records'.contains id ∧
      (Survey.recordOf records id).imprint = (Survey.recordOf records' id).imprint :=
    fun id hid => h id ((Plan.mem_order_draft_iff hV).mp hid)
  exact ⟨fun id hid => (hcode id hid).1, fun id hid => (congrArg Record.answered (hcode id hid).2 :),
    fun id hid => (congrArg Record.computed (hcode id hid).2 :),
    fun id hid => (congrArg Record.consulted (hcode id hid).2 :)⟩

/-- Which records of deleted cells are still there makes no difference to a survey. -/
theorem survey_eq_of_get? (hV : nb.Valid) {records : Records ν}
    (h : ∀ id ∈ nb.codeIds, records.get? id = (e.enrollAll nb).records.get? id) :
    Survey.ofPlan (Plan.draft nb) records = e.survey nb := by
  refine (agree_of_imprint hV fun id hid => ?_).ofPlan_eq (Plan.sound_draft hV)
  rw [Table.contains, Table.contains, Survey.recordOf, Survey.recordOf, h id hid]
  exact ⟨rfl, rfl⟩

theorem survey_eq_of_imprint (hV : nb.Valid) {e' : Engine κ ν}
    (h : ∀ id ∈ nb.codeIds, e'.imprint id = e.imprint id) : e'.survey nb = e.survey nb := by
  have hcontains : ∀ (e : Engine κ ν), ∀ id ∈ nb.codeIds,
      (e.enrollAll nb).records.contains id = true := fun e id hid =>
    contains_enrollAll_iff.mpr (Or.inr hid)
  refine (agree_of_imprint hV fun id hid => ?_).ofPlan_eq (Plan.sound_draft hV)
  rw [hcontains e' id hid, hcontains e id hid, imprint_recordOf, imprint_recordOf]
  exact ⟨rfl, h id hid⟩

theorem enrollAll_of_contains (h : ∀ id ∈ nb.codeIds, e.records.contains id = true) :
    e.enrollAll nb = e := by
  rw [enrollAll]
  generalize nb.codeIds = ids at h
  induction ids with
  | nil => rfl
  | cons id rest ih =>
    rw [List.foldl_cons, enroll, if_pos (h id List.mem_cons_self)]
    exact ih fun j hj => h j (List.mem_cons_of_mem id hj)

theorem orphans_of_contains (h : ∀ id, e.records.contains id = true → id ∈ nb.codeIds) :
    e.orphans nb = [] := by
  refine List.filter_eq_nil_iff.mpr fun id hid => ?_
  simpa [Notebook.hasCode] using h id ((Table.mem_keys_iff _).mp hid)

theorem setWaiting_of_waiting {waiting : Bool}
    (h : ∀ r, e.records.get? id = some r → r.waiting = waiting) : e.setWaiting id waiting = e := by
  rw [setWaiting]
  split
  · rfl
  · next r hr => rw [if_pos (h r hr)]

theorem snd_tick_of_none_serves (runner : Runner κ ν) (h : ∀ id, ¬ e.Serves nb id) :
    (e.choice nb).faults = [] ∧ (e.choice nb).runnable = none ∧
      (e.tick runner nb).2 = e.marked nb := by
  have hfaults : (e.choice nb).faults = [] := by
    refine List.eq_nil_iff_forall_not_mem.mpr fun f hf => h f.node.id ?_
    exact Or.inl ⟨f, hf, rfl⟩
  have hrunnable : (e.choice nb).runnable = none := by
    refine Option.eq_none_iff_forall_ne_some.mpr fun r hr => h r.node.id ?_
    exact Or.inr ⟨r, hr, rfl⟩
  refine ⟨hfaults, hrunnable, ?_⟩
  rw [snd_tick_of_none hrunnable, beforeRun, hfaults]
  rfl

/-- A tick that has nothing to enroll, to drop, to unmark or to serve moves the clock. -/
theorem snd_tick_of_in_place (hserves : ∀ id, ¬ e.Serves nb id)
    (hrecords : ∀ id, e.records.contains id = true ↔ id ∈ nb.codeIds)
    (hstale : (e.survey nb).stale = [])
    (hwaiting : ∀ id r, e.records.get? id = some r → r.waiting = false) :
    (e.tick runner nb).2 = { e with clock := e.clock.advance } := by
  have henroll : e.enrollAll nb = e := enrollAll_of_contains fun id => (hrecords id).mpr
  have hkept : e.kept nb = e := by
    rw [kept, henroll, orphans_of_contains fun id => (hrecords id).mp]
    rfl
  have hmark : ∀ id, mustWait (e.survey nb) (e.choice nb) id = false := fun id => by
    rw [Bool.eq_false_iff, ne_eq, mustWait_iff, hstale]
    exact fun h => List.not_mem_nil h.1
  rw [(snd_tick_of_none_serves runner hserves).2.2, marked, hkept, markWaiting]
  refine List.foldl_fixed' (fun id => setWaiting_of_waiting fun r hr => ?_) _
  rw [hmark id]
  exact hwaiting id r hr

/-- What a tick that serves nothing does to an engine. -/
structure Settles (nb : Notebook κ) (e e' : Engine κ ν) : Prop where
  settings : e'.settings = e.settings
  clock : e'.clock = e.clock.advance
  requests : e'.requests = e.requests
  kept : ∀ id ∈ nb.codeIds, ∃ r, e.records.get? id = some r ∧
    e'.records.get? id = some { r with waiting := false } ∧
      e'.tokens.isCancelled r.token = e.tokens.isCancelled r.token
  dropped : ∀ id, id ∉ nb.codeIds → e'.records.get? id = none

end Engine

namespace World

open Engine

variable {runner : Runner κ ν} {settings : Settings} {w : World κ ν} {id : CellId}

theorem contains_of_settled (hw : Reachable runner settings w) (hsettled : w.Settled)
    (hid : id ∈ w.notebook.codeIds) : w.engine.records.contains id = true := by
  obtain ⟨c, hc, rfl⟩ := List.mem_map.mp hid
  have hV := hw.consistent.valid
  have hstale : c.id ∉ (w.engine.survey w.notebook).stale := hsettled ▸ List.not_mem_nil
  have hanswered := (Engine.answered_of_not_stale hV hc
    (computed_ne_latest hw.consistent c.id) hstale).1
  by_contra hnone
  exact ne_blank_of_requested hV hc hanswered
    (imprint_of_not_contains (Bool.eq_false_iff.mpr hnone))

/-- The report of a tick that finds nothing stale, and the cells that it drops. -/
theorem report_of_settled (runner : Runner κ ν) (hw : w.Consistent) (hsettled : w.Settled) :
    w.report runner = ⟨w.engine.clock.advance.now, [], [], none,
      (w.engine.enrollAll w.notebook).orphans w.notebook⟩ := by
  obtain ⟨hfaults, hrunnable, _⟩ := snd_tick_of_none_serves runner
    fun id => not_serves_of_settled (v := id) hw hsettled
  have hstale : (w.engine.survey w.notebook).stale = [] := hsettled
  rw [report, fst_tick, launched, hfaults, hrunnable, hstale, now_marked]
  rfl

theorem settles_of_settled (hw : Reachable runner settings w) (hsettled : w.Settled) :
    Settles w.notebook w.engine (w.move runner .tick).engine := by
  have hV := hw.consistent.valid
  have hserves : ∀ id, ¬ w.engine.Serves w.notebook id := fun id =>
    not_serves_of_settled hw.consistent hsettled
  refine ⟨settings_tick hV, clock_tick hV,
    requests_tick_of_none (snd_tick_of_none_serves runner hserves).2.1,
    fun id hid => ?_, fun id hid => ?_⟩
  · obtain ⟨r, hr⟩ := Option.isSome_iff_exists.mp (contains_of_settled hw hsettled hid)
    have hstale : id ∉ (w.engine.survey w.notebook).stale := hsettled ▸ List.not_mem_nil
    have hran : (w.engine.tick runner w.notebook).1.ran ≠ some id := fun hran =>
      hserves id ((serves_iff runner hV).mpr (Or.inr hran))
    refine ⟨r, hr, ?_, ?_⟩
    · refine (get?_tick_of_not_serves runner hV hid (hserves id)).trans ?_
      rw [get?_enrollAll_of_get? hr, decide_eq_false hstale]
      rfl
    · exact (spares_tick hV hran (not_mem_removed_of_mem_codeIds hid) hw.apart r.token
        (held?_of_get? hr)).2
  · have hcontains : (w.move runner .tick).engine.records.contains id = false :=
      Bool.eq_false_iff.mpr fun h => hid ((contains_tick runner hV).mp h)
    simpa [Table.contains] using hcontains

/-- The tick after one that found nothing stale moves the clock, and reports nothing. -/
theorem tick_after_settled (hw : Reachable runner settings w) (hsettled : w.Settled) :
    let v := w.move runner .tick
    v.report runner = ⟨v.engine.clock.advance.now, [], [], none, []⟩ ∧
      (v.move runner .tick).engine = { v.engine with clock := v.engine.clock.advance } ∧
      v.engine.survey w.notebook = w.engine.survey w.notebook := by
  intro v
  have hV := hw.consistent.valid
  have hv : Reachable runner settings v := .move .tick hw
  have hrest : v.Settled := settled_tick hw hsettled
  have hrecords : ∀ id, v.engine.records.contains id = true ↔ id ∈ v.notebook.codeIds := fun id =>
    contains_tick runner hV
  have hsettles := settles_of_settled hw hsettled
  refine ⟨?_, ?_, ?_⟩
  · rw [report_of_settled runner hv.consistent hrest,
      enrollAll_of_contains fun id => (hrecords id).mpr,
      orphans_of_contains fun id => (hrecords id).mp]
  · refine snd_tick_of_in_place (fun id => not_serves_of_settled hv.consistent hrest) hrecords
      hrest fun id r hr => ?_
    have hid := (hrecords id).mp (contains_of_get? hr)
    obtain ⟨record, _, hrecord, _⟩ := hsettles.kept id hid
    have hsame : some r = some { record with waiting := false } := hr.symm.trans hrecord
    rw [Option.some.inj hsame]
  · exact survey_eq_of_imprint hV fun id hid =>
      imprint_tick_of_settled runner hw.consistent hsettled hid

theorem survey_afterTicks_of_settled (hw : Reachable runner settings w) (hsettled : w.Settled)
    (n : Nat) : (w.afterTicks runner n).engine.survey w.notebook = w.engine.survey w.notebook := by
  induction n generalizing w with
  | zero => rfl
  | succ n ih =>
    have hnext := ih (w := w.move runner .tick) (.move .tick hw) (settled_tick hw hsettled)
    exact hnext.trans (tick_after_settled hw hsettled).2.2

/-- In every reachable world a survey is the same whether or not the records of deleted cells have been
dropped. A tick that finds nothing stale serves nothing, drops the records of deleted cells, and leaves
of every other record all but the mark that its cell waits. Each tick after it finds nothing to report,
and moves the clock only. -/
theorem settled_tick_changes_nothing (runner : Runner κ ν) (settings : Settings)
    (moves : List (Move κ)) :
    let w := (start settings).play runner moves
    let nb := w.notebook
    let t := w.report runner
    (∀ records : Records ν,
      (∀ id ∈ nb.codeIds, records.get? id = (w.engine.enrollAll nb).records.get? id) →
        Survey.ofPlan (Plan.draft nb) records = w.engine.survey nb) ∧
    (t.stale = [] →
      t.fired = [] ∧ t.ran = none ∧
      (∀ id, id ∈ t.removed ↔ w.engine.records.contains id = true ∧ id ∉ nb.codeIds) ∧
      Settles nb w.engine (w.move runner .tick).engine ∧
      ∀ n, let v := w.afterTicks runner (n + 1)
        v.report runner = ⟨v.engine.clock.advance.now, [], [], none, []⟩ ∧
          (v.move runner .tick).engine = { v.engine with clock := v.engine.clock.advance } ∧
          v.engine.survey nb = w.engine.survey nb) := by
  intro w nb t
  have hw : Reachable runner settings w := reachable_iff_play.mpr ⟨moves, rfl⟩
  have hV := hw.consistent.valid
  refine ⟨fun records h => survey_eq_of_get? hV h, fun hstale => ?_⟩
  have hsettled : w.Settled := hstale
  have ht : t = _ := report_of_settled runner hw.consistent hsettled
  refine ⟨by rw [ht], by rw [ht], fun id => ?_, settles_of_settled hw hsettled, fun n => ?_⟩
  · rw [ht, enrollAll_of_contains fun id => contains_of_settled hw hsettled, orphans, List.mem_filter,
      Table.mem_keys_iff, Bool.not_eq_true', Bool.eq_false_iff, ne_eq, Notebook.hasCode_iff]
  · have hn := tick_after_settled (hw.afterTicks n) (settled_afterTicks hw hsettled n)
    have hnotebook : (w.afterTicks runner n).notebook = nb := notebook_afterTicks n
    rw [hnotebook, survey_afterTicks_of_settled hw hsettled n, ← afterTicks_succ] at hn
    exact hn

/-- A cell waits for a new input, which has run and is then removed. The next tick has nothing to run:
it drops the record of the input and takes the mark off the reader. -/
theorem settled_tick_drops_and_unmarks :
    let runner : Runner Nat Nat := fun q => pairAnswer q.cell q.code q.inputs
    let w := (start Settings.standard).play runner [
      .call (.addCode (pairSource ["a"] ["b"] 10)), .tick,
      .call (.addCode (pairSource [] ["a"] 7)), .tick, .call (.remove ⟨1⟩)]
    let v := w.move runner .tick
    (w.report runner).stale = [] ∧ (w.report runner).removed = [⟨1⟩] ∧
      (∃ r, w.engine.records.get? ⟨0⟩ = some r ∧ r.waiting = true ∧
        v.engine.records.get? ⟨0⟩ = some { r with waiting := false }) ∧
      v.engine.records.get? ⟨1⟩ = none ∧
      (v.move runner .tick).engine = { v.engine with clock := v.engine.clock.advance } := by
  intro runner w v
  have hstale : (w.report runner).stale = [] := by decide +kernel
  have hremoved : (w.report runner).removed = [⟨1⟩] := by decide +kernel
  have hcode : w.notebook.codeIds = [⟨0⟩] := by decide +kernel
  have hwaiting : ((w.engine.records.get? ⟨0⟩).map Record.waiting) = some true := by
    decide +kernel
  obtain ⟨_, _, _, hsettles, hafter⟩ :=
    (settled_tick_changes_nothing runner Settings.standard _).2 hstale
  obtain ⟨r, hr, hr', _⟩ := hsettles.kept ⟨0⟩ (hcode ▸ List.mem_singleton_self _)
  refine ⟨hstale, hremoved, ⟨r, hr, ?_, hr'⟩, hsettles.dropped ⟨1⟩ ?_, (hafter 0).2.1⟩
  · have hmark : (w.engine.records.get? ⟨0⟩).map Record.waiting = some r.waiting :=
      congrArg (Option.map Record.waiting) hr
    exact Option.some.inj (hmark.symm.trans hwaiting)
  · change ⟨1⟩ ∉ w.notebook.codeIds
    rw [hcode]
    decide

end World

end Recalc
