import Recalc.Proofs.Engine.Reruns
import Recalc.Proofs.Graph.Reach

/-!
# What one call makes stale

An engine that has come to rest is given a notebook that one call has changed. If the new graph has no
cycle, the cells that the next tick finds stale are the cell of the call and all that it fed before
the call or feeds after it (`stale_after_call`).

The arcs among the other cells are the same before and after. A cell that was fed by the cell of the
call has it among the cells that its last run used, and so runs again also where the arc is gone.
Without cycles a cell is visited after all that feeds it, so that every due time is `latest` for what
has to run again and the time of the last run for the rest (`Survey.Invalidated.visitDue_eq`).
-/

namespace Recalc

open Relation
open scoped Time

variable {κ ν : Type}

/-- In a plan without cycles every visit comes after a visit of each input. -/
theorem Plan.Sound.mem_before_visit {plan : Plan κ} (hP : plan.Sound)
    (hacyclic : ∀ v, ¬ TransGen plan.graph.Feeds v v) {before after : List (Entry κ)}
    {e : Entry κ} (hvisits : plan.visits = before ++ e :: after) {u : CellId}
    (hu : plan.graph.Feeds u e.id) : ∃ x ∈ before, x.id = u := by
  have hall : (∀ x ∈ plan.entries, x ∈ before) → ∃ x ∈ before, x.id = u := by
    intro hentries
    obtain ⟨x, hx, hid⟩ := mem_order_iff.mp (hP.feeds_mem hu).1
    exact ⟨x, hentries x hx, hid⟩
  rcases List.append_eq_append_iff.mp hvisits with ⟨more, hbefore, _⟩ | ⟨more, hentries, hrest⟩
  · exact hall fun x hx => hbefore ▸ List.mem_append_left _ hx
  · cases more with
    | nil => exact hall fun x hx => by simpa [hentries] using hx
    | cons y more =>
      obtain ⟨rfl, _⟩ := List.cons.inj hrest
      exact hP.mem_before_of_acyclic hentries (hacyclic e.id) (.single hu)

namespace Survey

variable {plan : Plan κ} {records : Records ν} {before after : List (Entry κ)} {e : Entry κ}

/-- What holds of each visit, given that it holds of the visits before, holds of all due times. -/
theorem forall_due?_before {P : CellId → Time → Prop}
    (hvisit : ∀ before e after, plan.visits = before ++ e :: after →
      (∀ id t, (run records start before).due? id = some t → P id t) →
        P e.id (visitDue records (run records start before) e))
    (hvisits : plan.visits = before ++ after) :
    ∀ id t, (run records start before).due? id = some t → P id t := by
  induction before using List.reverseRecOn generalizing after with
  | nil => rintro id t ⟨⟩
  | append_singleton before e ih =>
    rw [List.append_assoc, List.singleton_append] at hvisits
    intro id t hdue
    rw [run_append, run_cons] at hdue
    by_cases hid : id = e.id
    · subst hid
      have ht : visitDue records (run records start before) e = t :=
        Option.some.inj (due?_visit_self.symm.trans hdue)
      exact ht ▸ hvisit before e after hvisits (ih hvisits)
    · exact ih hvisits id t ((due?_visit_of_ne hid).symm.trans hdue)

/-- If visits of one cell always agree on whether it is stale, the stale cells are listed by their
first visits. -/
theorem stale_run_eq {p : CellId → Bool}
    (hvisit : ∀ before e after, plan.visits = before ++ e :: after →
      ((recordOf records e.id).computed < visitDue records (run records start before) e ↔
        p e.id = true))
    (hvisits : plan.visits = before ++ after) :
    (run records start before).stale = (before.map Entry.id).eraseDups.filter p := by
  induction before using List.reverseRecOn generalizing after with
  | nil => rfl
  | append_singleton before e ih =>
    rw [List.append_assoc, List.singleton_append] at hvisits
    have hstep : (run records start (before ++ [e])).stale =
        if p e.id = true ∧ e.id ∉ (run records start before).stale then
          (run records start before).stale ++ [e.id]
        else (run records start before).stale := by
      simp only [← hvisit before e after hvisits, run_append]
      rfl
    rw [hstep, ih hvisits, List.map_append, List.eraseDups_append, List.filter_append]
    by_cases hmem : e.id ∈ before.map Entry.id
    · have hnone : [e.id].removeAll (before.map Entry.id) = [] := by
        simpa [List.removeAll] using hmem
      rw [List.map_singleton, hnone, if_neg]
      · simp
      · rintro ⟨hp, hnot⟩
        exact hnot (List.mem_filter.mpr ⟨List.mem_eraseDups.mpr hmem, hp⟩)
    · have hnew : [e.id].removeAll (before.map Entry.id) = [e.id] := by
        simpa [List.removeAll] using hmem
      rw [List.map_singleton, hnew, eraseDups_of_nodup (List.nodup_singleton e.id)]
      have hnot : e.id ∉ (before.map Entry.id).eraseDups.filter p := fun h =>
        hmem (List.mem_eraseDups.mp (List.mem_filter.mp h).1)
      by_cases hp : p e.id = true
      · simp [hp, hnot]
      · simp [hp]

theorem stale_ofPlan_eq (hP : plan.Sound) {p : CellId → Bool}
    (hvisit : ∀ before e after, plan.visits = before ++ e :: after →
      ((recordOf records e.id).computed < visitDue records (run records start before) e ↔
        p e.id = true)) :
    (ofPlan plan records).stale = plan.order.filter p := by
  rw [ofPlan_eq_run, stale_run_eq hvisit (List.append_nil _).symm]
  have hids : plan.visits.map Entry.id =
      plan.order ++ (plan.faults.map Entry.faulty).map (Entry.id (κ := κ)) := List.map_append
  have hagain : ((plan.faults.map Entry.faulty).map (Entry.id (κ := κ))).removeAll plan.order =
      [] := by
    refine List.filter_eq_nil_iff.mpr fun id hid => ?_
    obtain ⟨x, hx, rfl⟩ := List.mem_map.mp hid
    obtain ⟨f, hf, rfl⟩ := List.mem_map.mp hx
    have hmem : (Entry.faulty f : Entry κ).id ∈ plan.order :=
      List.mem_map_of_mem (Plan.mem_faults_iff.mp hf)
    simpa using hmem
  rw [hids, List.eraseDups_append, hagain, eraseDups_of_nodup hP.nodup_order]
  simp

/-- A part of a plan, closed under the arcs, that has a reason to run again everywhere, while all
cells outside are quiet. -/
structure Invalidated (plan : Plan κ) (records : Records ν) (part : CellId → Prop) : Prop where
  reason : ∀ e ∈ plan.entries, part e.id →
    (recordOf records e.id).answered < e.requested ∨
      (∃ u, plan.graph.Feeds u e.id ∧ part u) ∨
        ∃ u ∈ (recordOf records e.id).consulted, part u
  feeds : ∀ u v, plan.graph.Feeds u v → part u → part v
  quiet : ∀ v ∈ plan.order, ¬ part v → Quiet plan (recordOf records) v
  contains : ∀ v ∈ plan.order, records.contains v = true

section Visit

variable {part : CellId → Prop} (hP : plan.Sound)
  (hacyclic : ∀ v, ¬ TransGen plan.graph.Feeds v v)
  (hvisits : plan.visits = before ++ e :: after)

include hP hacyclic hvisits

theorem exists_due?_of_feeds (records : Records ν) {u : CellId} (hu : plan.graph.Feeds u e.id) :
    ∃ t, (run records start before).due? u = some t :=
  Option.isSome_iff_exists.mp
    (due?_isSome_run_iff.mpr (Or.inr (hP.mem_before_visit hacyclic hvisits hu)))

variable (h : Invalidated plan records part)

include h

theorem Invalidated.visitDue_of_part
    (hbefore : ∀ u t, (run records start before).due? u = some t → part u → t = .latest)
    (hpart : part e.id) : visitDue records (run records start before) e = .latest := by
  have he : e ∈ plan.entries := Plan.mem_visits_iff.mp (hvisits ▸ by simp)
  cases lt_or_ge (recordOf records e.id).answered e.requested with
  | inl hreq => exact visitDue_of_lt hreq
  | inr hreq =>
    obtain ⟨_, hinputs, hused⟩ :=
      (visitDue_le_iff (s := run records start before) hreq).mp le_rfl
    refine Time.latest_le_iff.mp ?_
    rcases h.reason e he hpart with hlt | ⟨u, hu, hup⟩ | ⟨u, hu, hup⟩
    · exact absurd hlt (not_lt_of_ge hreq)
    · obtain ⟨t, hdue⟩ := exists_due?_of_feeds hP hacyclic hvisits records hu
      have hle := hinputs u ((hP.mem_inputIds_iff he).mpr hu)
      rwa [inputTime, hdue, Option.getD_some, hbefore u t hdue hup] at hle
    · have hle := hused u hu
      have hlatest : usedTime records e.node (run records start before) u = .latest := by
        rw [usedTime]
        split
        · split
          · next t hdue => exact hbefore u t hdue hup
          · next hnone =>
            refine if_neg fun hreads => ?_
            obtain ⟨t, hdue⟩ := exists_due?_of_feeds hP hacyclic hvisits records
              ((hP.mem_inputIds_iff he).mp (Node.mem_inputIds_iff.mpr hreads))
            rw [hnone] at hdue
            cases hdue
        · rfl
      rwa [hlatest] at hle

theorem Invalidated.visitDue_of_not_part
    (hbefore : ∀ u t, (run records start before).due? u = some t → ¬ part u →
      t = (recordOf records u).computed)
    (hpart : ¬ part e.id) :
    visitDue records (run records start before) e = (recordOf records e.id).computed := by
  have he : e ∈ plan.entries := Plan.mem_visits_iff.mp (hvisits ▸ by simp)
  have hq := h.quiet e.id (List.mem_map_of_mem he) hpart
  have hinput : ∀ u, plan.graph.Feeds u e.id → ∃ t,
      (run records start before).due? u = some t ∧ t ≤ (recordOf records e.id).computed := by
    intro u hu
    obtain ⟨t, hdue⟩ := exists_due?_of_feeds hP hacyclic hvisits records hu
    refine ⟨t, hdue, ?_⟩
    rw [hbefore u t hdue fun hup => hpart (h.feeds u e.id hu hup)]
    exact hq.computed u hu
  refine le_antisymm ?_ computed_le_visitDue
  refine (visitDue_le_iff (hq.answered e he rfl)).mpr ⟨le_rfl, fun u hu => ?_, fun u hu => ?_⟩
  · obtain ⟨t, hdue, hle⟩ := hinput u ((hP.mem_inputIds_iff he).mp hu)
    rwa [inputTime, hdue]
  · have hf : plan.graph.Feeds u e.id := Graph.mem_sources_iff.mp (hq.consulted ▸ hu)
    obtain ⟨t, hdue, hle⟩ := hinput u hf
    rwa [usedTime, if_pos (h.contains u (hP.feeds_mem hf).1), hdue]

end Visit

theorem Invalidated.visitDue_eq {part : CellId → Prop} (h : Invalidated plan records part)
    (hP : plan.Sound) (hacyclic : ∀ v, ¬ TransGen plan.graph.Feeds v v)
    (hvisits : plan.visits = before ++ e :: after)
    (hbefore : ∀ id t, (run records start before).due? id = some t →
      (part id → t = .latest) ∧ (¬ part id → t = (recordOf records id).computed)) :
    (part e.id → visitDue records (run records start before) e = .latest) ∧
      (¬ part e.id → visitDue records (run records start before) e =
        (recordOf records e.id).computed) :=
  ⟨h.visitDue_of_part hP hacyclic hvisits fun u t hdue => (hbefore u t hdue).1,
    h.visitDue_of_not_part hP hacyclic hvisits fun u t hdue => (hbefore u t hdue).2⟩

/-- Without cycles the stale cells are the cells of the part. -/
theorem Invalidated.stale_eq {part : CellId → Prop} [DecidablePred part]
    (h : Invalidated plan records part) (hP : plan.Sound)
    (hacyclic : ∀ v, ¬ TransGen plan.graph.Feeds v v)
    (hne : ∀ id, (recordOf records id).computed ≠ .latest) :
    (ofPlan plan records).stale = plan.order.filter fun id => decide (part id) := by
  refine stale_ofPlan_eq hP fun before e after hvisits => ?_
  obtain ⟨hin, hout⟩ := h.visitDue_eq hP hacyclic hvisits
    (forall_due?_before (fun _ _ _ => h.visitDue_eq hP hacyclic) hvisits)
  rw [decide_eq_true_iff]
  constructor
  · intro hlt
    by_contra hpart
    exact absurd (hout hpart ▸ hlt) (lt_irrefl _)
  · intro hpart
    rw [hin hpart]
    exact Time.lt_latest_iff.mpr (hne e.id)

end Survey

namespace World

variable {runner : Runner κ ν} {settings : Settings} {w₀ : World κ ν} {call : Call κ}

section Call

/-- What the cell of a call fed before the call or feeds after it, with the cell itself. -/
def Touched (nb : Notebook κ) (call : Call κ) (id : CellId) : Prop :=
  ReflTransGen (Plan.graphOf nb).Feeds (nb.subject call) id ∨
    ReflTransGen (Plan.graphOf (nb.apply call)).Feeds (nb.subject call) id

variable {nb : Notebook κ} {u v : CellId}

theorem feeds_apply_iff (nb : Notebook κ) (call : Call κ) (hu : u ≠ nb.subject call)
    (hv : v ≠ nb.subject call) :
    (Plan.graphOf (nb.apply call)).Feeds u v ↔ (Plan.graphOf nb).Feeds u v :=
  Plan.feeds_iff_of_filter (fun id => id != nb.subject call)
    (Notebook.filter_codeCells_apply nb call) (by simpa using hu) (by simpa using hv)

theorem touched_subject (nb : Notebook κ) (call : Call κ) : Touched nb call (nb.subject call) :=
  Or.inl .refl

theorem Touched.of_feeds (hu : Touched nb call u)
    (hf : (Plan.graphOf nb).Feeds u v ∨ (Plan.graphOf (nb.apply call)).Feeds u v) :
    Touched nb call v := by
  by_cases hv : v = nb.subject call
  · exact hv ▸ touched_subject nb call
  by_cases hus : u = nb.subject call
  · subst hus
    exact hf.imp .single .single
  · rw [feeds_apply_iff nb call hus hv, or_self] at hf
    exact hu.imp (fun h => h.tail hf) fun h => h.tail ((feeds_apply_iff nb call hus hv).mpr hf)

theorem Touched.cases (h : Touched nb call v) (hv : v ≠ nb.subject call) :
    (∃ u, (Plan.graphOf (nb.apply call)).Feeds u v ∧ Touched nb call u) ∨
      (Plan.graphOf nb).Feeds (nb.subject call) v := by
  cases h with
  | inl hold =>
    rcases ReflTransGen.cases_tail hold with heq | ⟨u, hu, huv⟩
    · exact absurd heq hv
    by_cases hus : u = nb.subject call
    · exact Or.inr (hus ▸ huv)
    · exact Or.inl ⟨u, (feeds_apply_iff nb call hus hv).mpr huv, Or.inl hu⟩
  | inr hnew =>
    rcases ReflTransGen.cases_tail hnew with heq | ⟨u, hu, huv⟩
    · exact absurd heq hv
    · exact Or.inl ⟨u, huv, Or.inr hu⟩

theorem touched_iff (nb : Notebook κ) (call : Call κ) (id : CellId) :
    Touched nb call id ↔ id = nb.subject call ∨
      id ∈ (Plan.graphOf nb).descendants (nb.subject call) ∨
        id ∈ (Plan.graphOf (nb.apply call)).descendants (nb.subject call) := by
  rw [Touched, ← Graph.eq_or_mem_descendants_iff (Plan.isClosed_graphOf _),
    ← Graph.eq_or_mem_descendants_iff (Plan.isClosed_graphOf _)]
  tauto

theorem mem_codeCells_of_apply {c : Cell κ} (hc : c ∈ (nb.apply call).codeCells)
    (hne : c.id ≠ nb.subject call) : c ∈ nb.codeCells := by
  have hmem : c ∈ (nb.apply call).codeCells.filter fun c => c.id != nb.subject call :=
    List.mem_filter.mpr ⟨hc, by simpa using hne⟩
  rw [Notebook.filter_codeCells_apply] at hmem
  exact (List.mem_filter.mp hmem).1

end Call

section Rest

variable (hw₀ : Reachable runner settings w₀) (hsettled : w₀.Settled)

include hw₀ hsettled

theorem quiet_of_mem_apply {c : Cell κ} (hc : c ∈ (w₀.notebook.apply call).codeCells)
    (hne : c.id ≠ w₀.notebook.subject call) :
    Survey.Quiet (Plan.draft w₀.notebook) (w₀.move runner .tick).engine.imprint c.id :=
  quiet_tick_of_settled hw₀ hsettled (mem_codeCells_of_apply hc hne)

theorem reason_of_touched (hrefusal : w₀.notebook.refusal? call = none) {c : Cell κ}
    (hc : c ∈ (w₀.notebook.apply call).codeCells) (htouched : Touched w₀.notebook call c.id) :
    ((w₀.move runner .tick).engine.imprint c.id).answered < c.requested ∨
      (∃ u, (Plan.graphOf (w₀.notebook.apply call)).Feeds u c.id ∧ Touched w₀.notebook call u) ∨
        ∃ u ∈ ((w₀.move runner .tick).engine.imprint c.id).consulted,
          Touched w₀.notebook call u := by
  have hw := hw₀.consistent
  by_cases hcs : c.id = w₀.notebook.subject call
  · left
    rw [hw.valid.requested_subject hrefusal hc hcs]
    exact Clock.lt_now_advance_of_le ((hw.tick runner).answered_le c.id)
  · rcases htouched.cases hcs with ⟨u, hu, hup⟩ | hsubject
    · exact Or.inr (Or.inl ⟨u, hu, hup⟩)
    · refine Or.inr (Or.inr ⟨_, ?_, touched_subject _ call⟩)
      rw [(quiet_of_mem_apply hw₀ hsettled hc hcs).consulted]
      exact Graph.mem_sources_iff.mpr hsubject

/-- Neither before nor after a call does its cell feed a cell that is not touched, so that such a cell
is as quiet as it was. -/
theorem quiet_of_not_touched {c : Cell κ} (hc : c ∈ (w₀.notebook.apply call).codeCells)
    (hnot : ¬ Touched w₀.notebook call c.id) :
    Survey.Quiet (Plan.draft (w₀.notebook.apply call)) (w₀.move runner .tick).engine.imprint
      c.id := by
  have hw := hw₀.consistent
  have hV : (w₀.notebook.apply call).Valid := hw.valid.apply call
  have hne : c.id ≠ w₀.notebook.subject call := fun hcs =>
    hnot (hcs ▸ touched_subject w₀.notebook call)
  have hq := quiet_of_mem_apply hw₀ hsettled hc hne
  have hkeep : ∀ u, (Plan.graphOf w₀.notebook).Feeds u c.id ∨
      (Plan.graphOf (w₀.notebook.apply call)).Feeds u c.id →
        (u != w₀.notebook.subject call) = true := by
    intro u hf
    refine bne_iff_ne.mpr ?_
    rintro rfl
    exact hnot ((touched_subject _ call).of_feeds hf)
  have hsources : (Plan.graphOf (w₀.notebook.apply call)).sources c.id =
      (Plan.graphOf w₀.notebook).sources c.id := by
    rw [Graph.sources, Graph.sources, Plan.inputs_eq_of_filter
      (fun id => id != w₀.notebook.subject call) (Notebook.filter_codeCells_apply _ call)
      (bne_iff_ne.mpr hne) (fun u hu => hkeep u (Or.inr hu)) fun u hu => hkeep u (Or.inl hu)]
  refine ⟨fun x hx hid => ?_, hq.consulted.trans hsources.symm, fun u hu => ?_⟩
  · obtain ⟨d, hd, source, _, rfl⟩ := (Plan.mem_entries_iff hV).mp hx
    rw [Plan.id_entryAt] at hid
    obtain rfl := hV.eq_of_id_eq hd hc hid
    obtain ⟨source', hs⟩ := Plan.exists_source hc
    have hold := (Plan.mem_entries_iff hw.valid).mpr
      ⟨d, mem_codeCells_of_apply hc hne, source', hs, rfl⟩
    have hanswered := hq.answered _ hold (Plan.id_entryAt _ _ _)
    rwa [Plan.requested_entryAt] at hanswered ⊢
  · refine hq.computed u (Graph.mem_sources_iff.mp ?_)
    exact hsources ▸ Graph.mem_sources_iff.mpr hu

theorem invalidated_call (hrefusal : w₀.notebook.refusal? call = none) :
    Survey.Invalidated (Plan.draft (w₀.notebook.apply call))
      ((w₀.move runner .tick).engine.enrollAll (w₀.notebook.apply call)).records
      (Touched w₀.notebook call) := by
  have hV : (w₀.notebook.apply call).Valid := hw₀.consistent.valid.apply call
  refine ⟨fun x hx hpart => ?_, fun u v hf hu => hu.of_feeds (Or.inr hf), fun v hv hpart => ?_,
    fun v hv => ?_⟩
  · obtain ⟨c, hc, source, _, rfl⟩ := (Plan.mem_entries_iff hV).mp hx
    rw [Plan.id_entryAt] at hpart ⊢
    rw [Engine.answered_recordOf, Engine.consulted_recordOf, Plan.requested_entryAt]
    exact reason_of_touched hw₀ hsettled hrefusal hc hpart
  · obtain ⟨c, hc, rfl⟩ := List.mem_map.mp ((Plan.mem_order_draft_iff hV).mp hv)
    exact Engine.quiet_recordOf_iff.mpr (quiet_of_not_touched hw₀ hsettled hc hpart)
  · exact Engine.contains_of_mem_order hV hv

end Rest

/-- One call on a notebook at rest makes stale, in the order of the plan, its own cell and what that
cell fed before the call or feeds after it, as far as these are still code cells. -/
theorem stale_after_call (runner : Runner κ ν) (settings : Settings) (moves : List (Move κ))
    (call : Call κ) :
    let w := (start settings).play runner moves
    let nb := w.notebook
    let e := (w.engine.tick runner nb).2
    let nb' := nb.apply call
    let subject := nb.subject call
    (w.engine.tick runner nb).1.isSettled = true → nb.refusal? call = none →
      (∀ v, ¬ TransGen (Plan.draft nb').graph.Feeds v v) →
      (∀ id, id ∈ (Plan.draft nb').order ↔ id ∈ nb'.codeIds) ∧
      (e.tick runner nb').1.stale = (Plan.draft nb').order.filter fun id =>
        decide (id = subject ∨ id ∈ (Plan.draft nb).graph.descendants subject ∨
          id ∈ (Plan.draft nb').graph.descendants subject) := by
  intro w nb e nb' subject htick hrefusal hacyclic
  have hw : Reachable runner settings w := reachable_iff_play.mpr ⟨moves, rfl⟩
  have hsettled : w.Settled := isSettled_tick_iff.mp htick
  have hV : nb'.Valid := hw.consistent.valid.apply call
  refine ⟨fun id => Plan.mem_order_draft_iff hV, ?_⟩
  classical
  have hstale := (invalidated_call hw hsettled hrefusal).stale_eq (Plan.sound_draft hV) hacyclic
    fun id => by
      rw [Engine.computed_recordOf]
      exact computed_ne_latest (hw.consistent.tick runner) id
  refine hstale.trans (List.filter_congr fun id _ => ?_)
  exact decide_eq_decide.mpr (touched_iff nb call id)

/-- The first of two cells drops its export: the second, which no arc joins to it any more, is stale
with it. -/
theorem stale_after_dropped_export :
    let runner : Runner Nat Nat := fun q => pairAnswer q.cell q.code q.inputs
    let w := (start Settings.standard).play runner (pairMoves 7)
    let call := Call.updateCode ⟨0⟩ (pairSource [] [] 7)
    let nb' := w.notebook.apply call
    (w.engine.tick runner w.notebook).1.isSettled = true ∧ w.notebook.refusal? call = none ∧
      (∀ v, ¬ TransGen (Plan.draft nb').graph.Feeds v v) ∧
      ((w.engine.tick runner w.notebook).2.tick runner nb').1.stale = [⟨0⟩, ⟨1⟩] := by
  intro runner w call nb'
  have hsettled : (w.engine.tick runner w.notebook).1.isSettled = true := by decide +kernel
  have hrefusal : w.notebook.refusal? call = none := by decide +kernel
  have harcs : (Plan.draft nb').graph.arcs = [] := by decide +kernel
  have hacyclic : ∀ v, ¬ TransGen (Plan.draft nb').graph.Feeds v v := by
    intro v hv
    obtain ⟨u, ⟨a, ha, _⟩, _⟩ := TransGen.head'_iff.mp hv
    rw [harcs] at ha
    cases ha
  have hstale := (stale_after_call runner Settings.standard (pairMoves 7) call hsettled hrefusal
    hacyclic).2
  refine ⟨hsettled, hrefusal, hacyclic, hstale.trans ?_⟩
  decide +kernel

end World

end Recalc
