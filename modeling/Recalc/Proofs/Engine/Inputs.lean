import Recalc.Proofs.Engine.Quiet

/-!
# What a run is given

A run is given the values that its inputs show once the tick has served the faults. A faulty cell shows
no values then (`exported_of_faulty`): if it is stale the tick has just served it; if it is not, its
last run met the same fault, as long as the cells on its cycles are not stale either.

A survey visits the faulty entries twice, and that is not always enough to find all cells on a cycle
stale when one of them is. A cell that is left out keeps the values of a run from before it was on the
cycle, and a run that reads from it is given them (`overlooked_cell_leaks`). Nothing else gets through:
every other value comes from the one cell that exports its name and can run (`inputs_of_run`). When
nothing is stale no cell is left out, and a cell reads under every name what the one cell that exports
it shows (`get?_inputsOf_iff`).
-/

namespace Recalc

open Relation
open scoped Time

variable {κ ν : Type}

namespace Result

theorem get?_exported_iff {r : Result ν} {name : Name} {value : ν} :
    r.exported.get? name = some value ↔ name ≠ Name.default ∧
      ∃ bindings, r.bindings? = some bindings ∧ bindings.get? name = some value := by
  rw [exported]
  cases r.bindings? with
  | none => exact iff_of_false nofun fun h => nomatch h.2
  | some bindings =>
    dsimp only
    rw [Table.get?, Table.filter, Table.valueAt?_filter fun key => key != Name.default]
    by_cases hname : name = Name.default
    · simp [hname]
    · simp [hname, Table.get?]

end Result

namespace Engine

theorem exists_input_of_inputsOf {e : Engine κ ν} {node : Node} {name : Name} {value : ν}
    (h : (e.inputsOf node).get? name = some value) :
    ∃ p ∈ node.inputs, p.2.input = name ∧ e.valueOf? p.1 name = some value := by
  rw [inputsOf] at h
  -- of the inputs taken so far, the last may have set the value, or the ones before it
  generalize node.inputs = l at h ⊢
  induction l using List.reverseRecOn with
  | nil => cases h
  | append_singleton before p ih =>
    rw [List.foldl_append, List.foldl_cons, List.foldl_nil] at h
    split at h
    · next value' hvalue =>
      by_cases hname : name = p.2.input
      · subst hname
        rw [Table.get?_insert_self, Option.some.injEq] at h
        exact ⟨p, List.mem_append_right _ (List.mem_singleton_self p), rfl, h ▸ hvalue⟩
      · rw [Table.get?_insert_of_ne _ hname] at h
        obtain ⟨q, hq, hvalue⟩ := ih h
        exact ⟨q, List.mem_append_left _ hq, hvalue⟩
    · obtain ⟨q, hq, hvalue⟩ := ih h
      exact ⟨q, List.mem_append_left _ hq, hvalue⟩

/-- Where some input brings in a value for a name, the name has a value. -/
theorem exists_get?_inputsOf {e : Engine κ ν} {node : Node} {p : CellId × Link}
    (hp : p ∈ node.inputs) (hvalue : (e.valueOf? p.1 p.2.input).isSome = true) :
    ∃ value, (e.inputsOf node).get? p.2.input = some value := by
  rw [inputsOf]
  generalize node.inputs = l at hp ⊢
  induction l using List.reverseRecOn with
  | nil => cases hp
  | append_singleton before q ih =>
    rw [List.foldl_append, List.foldl_cons, List.foldl_nil]
    split
    · next value hq =>
      by_cases hname : p.2.input = q.2.input
      · exact ⟨value, hname ▸ Table.get?_insert_self _ _ _⟩
      · rw [Table.get?_insert_of_ne _ hname]
        refine ih ((List.mem_append.mp hp).resolve_right fun h => hname ?_)
        rw [List.mem_singleton.mp h]
    · next hnone =>
      refine ih ((List.mem_append.mp hp).resolve_right fun h => ?_)
      rw [List.mem_singleton.mp h, hnone] at hvalue
      cases hvalue

end Engine

namespace Plan

variable {nb past : Notebook κ}

/-- A cell that could run, and still has the cells that fed it and feeds from no others, can only have
become part of a cycle. -/
theorem cyclicDependency_of_filter (keep : CellId → Bool) {id : CellId}
    (hcells : (nb.codeCells.filter fun c => keep c.id) = past.codeCells.filter fun c => keep c.id)
    (hid : keep id = true) (hfeeds : ∀ u, (graphOf nb).Feeds u id → keep u = true)
    (hfeeds' : ∀ u, (graphOf past).Feeds u id → keep u = true) {source : Compilation κ}
    {fault : Fault} (hpast : faultAt? past id source = none)
    (hnow : faultAt? nb id source = some fault) :
    ∃ paths, fault = .cyclicDependency paths := by
  cases source with
  | error message => cases hpast
  | ok p =>
    obtain ⟨hreturn, hconflicts, _⟩ := fault?_eq_none_iff.mp hpast
    have hsame : (graphOf nb).conflicts id = (graphOf past).conflicts id := by
      rw [graphOf, graphOf, ← Graph.conflicts_restrict hid hfeeds,
        ← Graph.conflicts_restrict hid hfeeds', ← graphOf, ← graphOf, restrict_graphOf,
        restrict_graphOf, hcells]
    rw [faultAt?, fault?, hreturn, hsame, hconflicts] at hnow
    simp only [Bool.false_eq_true, if_false, ne_eq, not_true_eq_false] at hnow
    split at hnow
    · exact ⟨_, (Option.some.inj hnow).symm⟩
    · cases hnow

end Plan

namespace World

variable {runner : Runner κ ν} {settings : Settings} {w w₀ : World κ ν} {c : Cell κ}

/-- A cell that is not stale although another on a cycle with it is. -/
def Overlooked (w : World κ ν) (u : CellId) : Prop :=
  u ∉ (w.engine.survey w.notebook).stale ∧
    ∃ x ∈ (w.engine.survey w.notebook).stale, (Plan.graphOf w.notebook).Joined u x

/-- Cells on cycles of which no cell is stale are as they were when any of them ran last. -/
theorem joined_unchanged (hw : Reachable runner settings w) (hc : c ∈ w.notebook.codeCells)
    (hstale : ∀ x, (Plan.graphOf w.notebook).Joined c.id x →
      x ∉ (w.engine.survey w.notebook).stale)
    (hlast : LastRun runner settings w₀ w c.id) {z : CellId}
    (hz : (Plan.graphOf w.notebook).Joined c.id z) :
    z ∈ Notebook.unchangedIds w₀.notebook w.notebook := by
  have hV := hw.consistent.valid
  have hlatest := computed_ne_latest hw.consistent
  -- back along the way to the cell, the last runs do not get later
  have hle : ∀ z, ReflTransGen (Plan.graphOf w.notebook).Feeds z c.id →
      ReflTransGen (Plan.graphOf w.notebook).Feeds c.id z →
      ∃ d ∈ w.notebook.codeCells, d.id = z ∧ d.requested ≤ (w.engine.imprint z).answered ∧
        (w.engine.imprint z).computed ≤ (w.engine.imprint c.id).computed := by
    intro z hzc
    induction hzc using ReflTransGen.head_induction_on with
    | refl =>
      intro _
      have hself := Engine.answered_of_not_stale hV hc (hlatest c.id) (hstale c.id ⟨.refl, .refl⟩)
      exact ⟨c, hc, rfl, hself.1, le_rfl⟩
    | @head z y hzy hyc ih =>
      intro hcz
      obtain ⟨d, hd, rfl, _, hcomputed⟩ := ih (hcz.tail hzy)
      have hnot := hstale d.id ⟨hcz.tail hzy, hyc⟩
      obtain ⟨b, hb, rfl, hanswered, hle⟩ :=
        (Engine.answered_of_not_stale hV hd (hlatest d.id) hnot).2 z (Or.inl hzy)
      exact ⟨b, hb, rfl, hanswered, le_trans hle hcomputed⟩
  obtain ⟨d, hd, rfl, hanswered, hcomputed⟩ := hle z hz.2 hz.1
  rw [hlast.computed_eq] at hcomputed
  exact (mem_unchangedIds hlast.reachable.consistent hlast.later hd hanswered hcomputed).1

theorem exported_of_not_stale (hw : Reachable runner settings w) (hc : c ∈ w.notebook.codeCells)
    (hstale : c.id ∉ (w.engine.survey w.notebook).stale) {source : Compilation κ}
    (hs : c.content = .code source) {fault : Fault}
    (hfault : Plan.faultAt? w.notebook c.id source = some fault) :
    (w.engine.imprint c.id).exported = ∅ ∨
      (∃ paths, fault = .cyclicDependency paths) ∧ w.Overlooked c.id := by
  obtain ⟨w₀, hlast, hself, hkept⟩ := unchanged_of_not_stale hw hc hstale
  have hV₀ := hlast.reachable.consistent.valid
  rcases hlast.serves with ⟨f, hf, hid⟩ | ⟨r, hr, hid⟩
  · left
    have himprint := hlast.imprint_eq.trans (hid ▸ Engine.imprint_tick_faulty hV₀ hf)
    rw [himprint]
    rfl
  right
  have hcells := hlast.later.filter_unchanged hlast.reachable.consistent
  have hc₀ : c ∈ w₀.notebook.codeCells :=
    (Later.continues hlast.later).mem_past_of_unchanged hw.consistent.valid hc hself
  have hrun : (Plan.draft w₀.notebook).CanRun c.id :=
    ⟨r, Plan.mem_runnables_iff.mpr (Engine.mem_entries_of_runnable hr), hid⟩
  have hthen := (Plan.canRun_iff hV₀ hc₀ hs).mp hrun
  have hfeeds : ∀ u, (Plan.graphOf w.notebook).Feeds u c.id →
      decide (u ∈ Notebook.unchangedIds w₀.notebook w.notebook) = true :=
    fun u hu => decide_eq_true (hkept u (Or.inl hu))
  have hfeeds' : ∀ u, (Plan.graphOf w₀.notebook).Feeds u c.id →
      decide (u ∈ Notebook.unchangedIds w₀.notebook w.notebook) = true :=
    fun u hu => decide_eq_true (hkept u (Or.inr (Graph.mem_sources_iff.mpr hu)))
  refine ⟨Plan.cyclicDependency_of_filter _ hcells (decide_eq_true hself) hfeeds hfeeds' hthen hfault,
    hstale, ?_⟩
  -- were no cell on its cycles stale, it could run today as it could then
  by_contra hnone
  have hjoined : ∀ x, (Plan.graphOf w.notebook).Joined c.id x →
      x ∉ (w.engine.survey w.notebook).stale := fun x hx hin => hnone ⟨x, hin, hx⟩
  have hsame := Plan.faultAt?_eq_of_filter _ hcells (decide_eq_true hself) hfeeds
    (fun u hu => decide_eq_true (joined_unchanged hw hc hjoined hlast hu)) hfeeds'
    (fun u hu => ?_) source
  · rw [hfault, hthen] at hsame
    cases hsame
  · by_cases heq : c.id = u
    · exact heq ▸ decide_eq_true hself
    · exact absurd (hu.transGen heq ⟨.refl, .refl⟩)
        ((Plan.sound_draft hV₀).acyclic_of_canRun hrun)

/-- After a tick a faulty cell shows no values, unless it could run before it got on a cycle of which
another cell is stale. -/
theorem exported_of_faulty (hw : Reachable runner settings w) {f : Faulty}
    (hf : f ∈ (Plan.draft w.notebook).faults) :
    ((w.move runner .tick).engine.imprint f.node.id).exported = ∅ ∨
      (∃ paths, f.fault = .cyclicDependency paths) ∧ w.Overlooked f.node.id := by
  have hV := hw.consistent.valid
  by_cases hstale : f.node.id ∈ (w.engine.survey w.notebook).stale
  · left
    have himprint : (w.move runner .tick).engine.imprint f.node.id = _ :=
      Engine.imprint_tick_faulty hV (Engine.mem_faults_choice_iff.mpr ⟨hf, hstale⟩)
    rw [himprint]
    rfl
  · obtain ⟨c, hc, source, hs, hfault, hfc⟩ := (Plan.mem_faults_draft_iff hV).mp hf
    have hid : f.node.id = c.id := by
      rw [hfc]
      rfl
    rw [hid] at hstale ⊢
    rw [imprint_tick_of_not_serves runner hw.consistent (List.mem_map_of_mem hc) fun hserves =>
      hstale (Engine.mem_stale_of_serves hV hserves)]
    exact exported_of_not_stale hw hc hstale hs hfault

/-- An arc into a cell that can run comes from an export that the cell imports, never from a rival. -/
theorem exports_of_input {nb : Notebook κ} (hV : nb.Valid) {r : Runnable κ}
    (hr : r ∈ (Plan.draft nb).runnables) {u : CellId} {link : Link}
    (hp : (u, link) ∈ r.node.inputs) :
    (∃ c ∈ nb.codeCells, c.id = u ∧ c.Exports link.input) ∧
      ∃ b ∈ nb.codeCells, b.id = r.node.id ∧ b.Imports link.input := by
  have hnode := (Plan.sound_draft hV).node_eq _ (Plan.mem_runnables_iff.mp hr)
  rw [show r.node = _ from hnode] at hp
  obtain ⟨q, hq, link', he, d, hd, harc⟩ :=
    Graph.mem_arcs_ofInterfaces_iff.mp (Graph.mem_inputs_iff.mp hp)
  obtain ⟨c, hc, rfl⟩ := List.mem_map.mp hq
  obtain ⟨b, hb, rfl⟩ := List.mem_map.mp hd
  have hexp : c.Exports link'.output := Cell.exports_interface_iff.mp ⟨link', he, rfl⟩
  rcases harc with ⟨i, hi, hie, harc⟩ | ⟨hne, ⟨hbc, hrival⟩, harc⟩ <;>
    obtain ⟨rfl, htarget, rfl⟩ := Arc.mk.inj harc
  · exact ⟨⟨c, hc, c.interface_id.symm, hexp⟩, b, hb, b.interface_id.symm.trans htarget.symm,
      Cell.imports_interface_iff.mp ⟨i, hi, hie⟩⟩
  · rw [Cell.interface_id, Cell.interface_id] at hbc
    have hrun : (Plan.draft nb).CanRun b.id := ⟨r, hr, htarget.trans b.interface_id⟩
    exact absurd hexp (Plan.not_exports_of_canRun hV hb hrun hne
      (Cell.exports_interface_iff.mp hrival) hc hbc.symm)

section Settled

variable (hw : Reachable runner settings w) (hsettled : w.Settled)

include hw hsettled

theorem exported_of_faulty_of_settled {f : Faulty} (hf : f ∈ (Plan.draft w.notebook).faults) :
    (w.engine.imprint f.node.id).exported = ∅ := by
  have hnot (id : CellId) : id ∉ (w.engine.survey w.notebook).stale :=
    hsettled ▸ List.not_mem_nil
  obtain ⟨c, hc, source, hs, hfault, hfc⟩ :=
    (Plan.mem_faults_draft_iff hw.consistent.valid).mp hf
  have hid : f.node.id = c.id := by
    rw [hfc]
    rfl
  rw [hid]
  refine (exported_of_not_stale hw hc (hnot c.id) hs hfault).resolve_right ?_
  rintro ⟨_, _, x, hx, _⟩
  exact hnot x hx

/-- When nothing is stale, a cell that shows a value can run, and is the only one to export its name. -/
theorem sole_source_of_settled (hc : c ∈ w.notebook.codeCells) {name : Name} {value : ν}
    (hexp : c.Exports name)
    (hshown : (w.engine.imprint c.id).exported.get? name = some value) :
    name ≠ Name.default ∧ (Plan.draft w.notebook).CanRun c.id ∧
      ∀ d ∈ w.notebook.codeCells, d.Exports name → d = c := by
  have hV := hw.consistent.valid
  have hname : name ≠ Name.default :=
    (Result.get?_exported_iff.mp (hw.consistent.exported_eq c.id ▸ hshown)).1
  have hrun : (Plan.draft w.notebook).CanRun c.id := by
    refine (Plan.canRun_or_faulty ((Plan.mem_order_draft_iff hV).mpr
      (List.mem_map_of_mem hc))).resolve_right ?_
    rintro ⟨f, hf, hid⟩
    rw [← hid, exported_of_faulty_of_settled hw hsettled hf] at hshown
    cases hshown
  exact ⟨hname, hrun, fun d => Plan.eq_of_exports_of_canRun hV hc hrun hname hexp⟩

/-- When nothing is stale, a cell that can run is given a value for a name if it imports the name and
another cell shows that value under it. -/
theorem get?_inputsOf_iff (hc : c ∈ w.notebook.codeCells) {r : Runnable κ}
    (hr : r ∈ (Plan.draft w.notebook).runnables) (hid : r.node.id = c.id) {name : Name}
    {value : ν} :
    (w.engine.inputsOf r.node).get? name = some value ↔ c.Imports name ∧
      ∃ d ∈ w.notebook.codeCells, d.Exports name ∧
        (w.engine.imprint d.id).exported.get? name = some value := by
  have hV := hw.consistent.valid
  have hsource {name : Name} {value : ν}
      (hvalue : (w.engine.inputsOf r.node).get? name = some value) : c.Imports name ∧
        ∃ d ∈ w.notebook.codeCells, d.Exports name ∧
          (w.engine.imprint d.id).exported.get? name = some value := by
    obtain ⟨⟨u, link⟩, hinput, rfl, hshown⟩ := Engine.exists_input_of_inputsOf hvalue
    obtain ⟨⟨d, hd, rfl, hexp⟩, b, hb, hbid, himports⟩ := exports_of_input hV hr hinput
    rw [Engine.valueOf?_eq] at hshown
    exact ⟨hV.eq_of_id_eq hb hc (hbid.trans hid) ▸ himports, d, hd, hexp, hshown⟩
  refine ⟨hsource, fun h => ?_⟩
  obtain ⟨himports, d, hd, hexp, hshown⟩ := h
  have hinput := Plan.mem_inputs_of_imports hc hd himports hexp
  have hnode := (Plan.sound_draft hV).node_eq _ (Plan.mem_runnables_iff.mp hr)
  rw [← hid, ← show r.node.inputs = (Plan.graphOf w.notebook).inputs r.node.id from
    congrArg Node.inputs hnode] at hinput
  -- some value comes in, and it can be no other
  obtain ⟨value', hvalue'⟩ := Engine.exists_get?_inputsOf (e := w.engine) hinput
    (by rw [Engine.valueOf?_eq]; exact Option.isSome_of_eq_some hshown)
  obtain ⟨_, d', hd', hexp', hshown'⟩ := hsource hvalue'
  obtain ⟨_, _, hsole⟩ := sole_source_of_settled hw hsettled hd hexp hshown
  rw [hsole d' hd' hexp', show (Link.same name).input = name from rfl, hshown] at hshown'
  rw [Option.some.inj hshown']
  exact hvalue'

end Settled

/-- A value that a run is given comes from the one cell that exports its name and can run, or else from
a cell overlooked on a cycle. -/
theorem source_of_input (hw : Reachable runner settings w) {r : Runnable κ}
    (hr : (w.engine.choice w.notebook).runnable = some r) {name : Name} {value : ν}
    (hvalue : ((w.move runner .tick).engine.inputsOf r.node).get? name = some value) :
    ∃ c ∈ w.notebook.codeCells, c.Exports name ∧ (Plan.graphOf w.notebook).Feeds c.id r.node.id ∧
      ((w.move runner .tick).engine.imprint c.id).exported.get? name = some value ∧
      ((Plan.draft w.notebook).CanRun c.id ∧ c.id ∉ (w.engine.survey w.notebook).stale ∧
          (∀ d ∈ w.notebook.codeCells, d.Exports name → d = c) ∨
        (∃ paths, (Plan.draft w.notebook).HasFault c.id (.cyclicDependency paths)) ∧
          w.Overlooked c.id) := by
  have hV := hw.consistent.valid
  have hP := Plan.sound_draft hV
  obtain ⟨hmem, hcandidate⟩ := (Choice.of_runnable_ofSurvey hr).1
  obtain ⟨⟨u, link⟩, hp, rfl, hvalue⟩ := Engine.exists_input_of_inputsOf hvalue
  obtain ⟨⟨c, hc, rfl, hexp⟩, _⟩ := exports_of_input hV hmem hp
  rw [Engine.valueOf?_eq] at hvalue
  have hfeeds : (Plan.graphOf w.notebook).Feeds c.id r.node.id := by
    refine (hP.mem_inputIds_iff (Plan.mem_runnables_iff.mp hmem)).mp ?_
    simpa [Node.inputIds] using ⟨link, hp⟩
  refine ⟨c, hc, hexp, hfeeds, hvalue, ?_⟩
  rcases Plan.canRun_or_faulty ((Plan.mem_order_draft_iff hV).mpr (List.mem_map_of_mem hc)) with
    hrun | ⟨f, hf, hid⟩
  · left
    have hname : link.input ≠ Name.default :=
      (Result.get?_exported_iff.mp ((hw.consistent.tick runner).exported_eq c.id ▸ hvalue)).1
    exact ⟨hrun, fun hstale =>
      ((Choice.isCandidate_iff hP hmem).mp hcandidate).2 c.id hfeeds hstale hrun,
      fun d => Plan.eq_of_exports_of_canRun hV hc hrun hname hexp⟩
  · right
    rcases exported_of_faulty hw hf with hempty | ⟨⟨paths, hpaths⟩, hover⟩
    · rw [hid] at hempty
      rw [hempty] at hvalue
      cases hvalue
    · exact ⟨⟨paths, f, hf, hid, hpaths⟩, hid ▸ hover⟩

/-- The values that a run is given show in the records when it is over. Each comes from the one cell
that exports its name, can run and is not stale, or else from a cell overlooked on a cycle; the
other faulty cells show no values. -/
theorem inputs_of_run (runner : Runner κ ν) (settings : Settings) (moves : List (Move κ)) :
    let w := (start settings).play runner moves
    let plan := Plan.draft w.notebook
    let t := (w.engine.tick runner w.notebook).1
    let e := (w.engine.tick runner w.notebook).2
    (∀ f ∈ plan.faults,
      (∃ record, e.records.get? f.node.id = some record ∧ record.exported = ∅) ∨
        (∃ paths, f.fault = .cyclicDependency paths) ∧ w.Overlooked f.node.id) ∧
    ∀ v, t.ran = some v → ∃ request, e.requests = request :: w.engine.requests ∧
      request.cell = v ∧ ∀ name value, request.inputs.get? name = some value →
        ∃ c ∈ w.notebook.codeCells, c.Exports name ∧ plan.graph.Feeds c.id v ∧
          (∃ record, e.records.get? c.id = some record ∧
            record.exported.get? name = some value) ∧
          (plan.CanRun c.id ∧ c.id ∉ t.stale ∧
              (∀ d ∈ w.notebook.codeCells, d.Exports name → d = c) ∨
            (∃ paths, plan.HasFault c.id (.cyclicDependency paths)) ∧ w.Overlooked c.id) := by
  intro w plan t e
  have hw : Reachable runner settings w := reachable_iff_play.mpr ⟨moves, rfl⟩
  have hV := hw.consistent.valid
  have hrecord : ∀ id ∈ w.notebook.codeIds, ∃ record, e.records.get? id = some record ∧
      record.exported = (e.imprint id).exported := by
    intro id hid
    obtain ⟨record, hrecord, himprint⟩ := Engine.exists_record_tick runner hV hid
    have hexported := congrArg Record.exported himprint
    exact ⟨record, hrecord, hexported.symm⟩
  refine ⟨fun f hf => ?_, fun v hv => ?_⟩
  · refine (exported_of_faulty hw hf).imp_left fun hempty => ?_
    obtain ⟨record, hget, hexported⟩ := hrecord f.node.id
      (Engine.mem_codeIds_of_mem_entries hV (Plan.mem_faults_iff.mp hf))
    exact ⟨record, hget, hexported.trans hempty⟩
  · rw [show t.ran = _ from Engine.ran_tick hV, Option.map_eq_some_iff] at hv
    obtain ⟨r, hr, rfl⟩ := hv
    obtain ⟨request, hcell, _, hinputs, hrequests, _⟩ := Engine.imprint_tick_runnable runner hV hr
    refine ⟨request, hrequests, hcell, fun name value hvalue => ?_⟩
    obtain ⟨c, hc, hexp, hfeeds, hshown, hsource⟩ := source_of_input hw hr (hinputs ▸ hvalue)
    obtain ⟨record, hget, hexported⟩ := hrecord c.id (List.mem_map_of_mem hc)
    exact ⟨c, hc, hexp, hfeeds, ⟨record, hget, hexported ▸ hshown⟩, hsource⟩

/-- A change of the first cell puts the fourth on a cycle with the first three. The tick finds two of
them stale and not the fourth, and the fifth cell is given its value of an earlier run. -/
theorem overlooked_cell_leaks :
    let runner : Runner Nat Nat := fun q => .ok (Table.ofList [("u", q.code)])
    let w := (start Settings.standard).play runner [
      .call (.addCode (pairSource [] ["y"] 1)), .call (.addCode (pairSource ["y", "b"] ["a"] 2)),
      .call (.addCode (pairSource ["a"] ["b"] 3)), .call (.addCode (pairSource ["b"] ["u"] 7)),
      .tick, .tick, .tick, .tick, .call (.updateCode ⟨0⟩ (pairSource ["a", "u"] ["y"] 1)),
      .call (.addCode (pairSource ["u"] ["x"] 4))]
    let plan := Plan.draft w.notebook
    let t := (w.engine.tick runner w.notebook).1
    let e := (w.engine.tick runner w.notebook).2
    t.stale = [⟨0⟩, ⟨4⟩, ⟨1⟩] ∧ t.ran = some ⟨4⟩ ∧ plan.graph.Feeds ⟨3⟩ ⟨4⟩ ∧
      (plan.faulty? ⟨3⟩).map Faulty.fault =
        some (.cyclicDependency [["u", "y", "a", "b", "u"]]) ∧
      e.requests.head?.map (fun q => (q.cell, q.inputs.get? "u")) = some (⟨4⟩, some 7) := by
  decide +kernel

end World

end Recalc
