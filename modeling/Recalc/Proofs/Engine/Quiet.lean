import Recalc.Proofs.Engine.History
import Recalc.Proofs.Plan.Classification

/-!
# Quiet cells

Staleness speaks of due times, quietness of imprints alone. In a reachable world a cell that is not
stale is quiet (`quiet_of_not_stale`), and a cell is not stale if everything that feeds it is quiet,
itself included (`not_stale_of_calm`). A tick makes the cells that it serves quiet, takes quietness
from the cells that read from them, and leaves all others as they are.
-/

namespace Recalc

open Relation
open scoped Time

variable {κ ν : Type}

namespace Engine

variable {e : Engine κ ν} {nb : Notebook κ} {runner : Runner κ ν} {u v : CellId}

theorem imprint_recordOf (e : Engine κ ν) (nb : Notebook κ) (id : CellId) :
    (Survey.recordOf (e.enrollAll nb).records id).imprint = e.imprint id :=
  congrFun (imprint_enrollAll e nb) id

theorem answered_recordOf (e : Engine κ ν) (nb : Notebook κ) (id : CellId) :
    (Survey.recordOf (e.enrollAll nb).records id).answered = (e.imprint id).answered := by
  rw [← imprint_recordOf e nb id]
  rfl

theorem computed_recordOf (e : Engine κ ν) (nb : Notebook κ) (id : CellId) :
    (Survey.recordOf (e.enrollAll nb).records id).computed = (e.imprint id).computed := by
  rw [← imprint_recordOf e nb id]
  rfl

theorem consulted_recordOf (e : Engine κ ν) (nb : Notebook κ) (id : CellId) :
    (Survey.recordOf (e.enrollAll nb).records id).consulted = (e.imprint id).consulted := by
  rw [← imprint_recordOf e nb id]
  rfl

theorem mem_codeIds_of_mem_stale (hV : nb.Valid) (h : v ∈ (e.survey nb).stale) :
    v ∈ nb.codeIds :=
  (Plan.mem_order_draft_iff hV).mp (Survey.mem_order_of_mem_stale h)

theorem mem_stale_of_serves (hV : nb.Valid) (h : e.Serves nb v) : v ∈ (e.survey nb).stale := by
  rcases h with ⟨f, hf, rfl⟩ | ⟨r, hr, rfl⟩
  · exact (mem_faults_choice_iff.mp hf).2
  · obtain ⟨⟨hmem, hcandidate⟩, _⟩ := Choice.of_runnable_ofSurvey hr
    exact ((Choice.isCandidate_iff (Plan.sound_draft hV) hmem).mp hcandidate).1

theorem serves_of_faulty (h : v ∈ (e.survey nb).stale) {f : Faulty}
    (hf : f ∈ (Plan.draft nb).faults) (hid : f.node.id = v) : e.Serves nb v :=
  Or.inl ⟨f, mem_faults_choice_iff.mpr ⟨hf, hid.symm ▸ h⟩, hid⟩

/-- A cell on a cycle is faulty, so a tick serves it as soon as it is stale. -/
theorem serves_of_cyclic (hV : nb.Valid) (h : v ∈ (e.survey nb).stale)
    (hcycle : TransGen (Plan.draft nb).graph.Feeds v v) : e.Serves nb v := by
  rcases Plan.canRun_or_faulty (Survey.mem_order_of_mem_stale h) with hrun | ⟨f, hf, hid⟩
  · exact absurd hcycle ((Plan.sound_draft hV).acyclic_of_canRun hrun)
  · exact serves_of_faulty h hf hid

theorem answered_of_not_stale (hV : nb.Valid) {c : Cell κ} (hc : c ∈ nb.codeCells)
    (hne : (e.imprint c.id).computed ≠ .latest) (hstale : c.id ∉ (e.survey nb).stale) :
    c.requested ≤ (e.imprint c.id).answered ∧
      ∀ u, (Plan.graphOf nb).Feeds u c.id ∨ u ∈ (e.imprint c.id).consulted →
        ∃ d ∈ nb.codeCells, d.id = u ∧ d.requested ≤ (e.imprint u).answered ∧
          (e.imprint u).computed ≤ (e.imprint c.id).computed := by
  obtain ⟨source, hs⟩ := Plan.exists_source hc
  have hx : Plan.entryAt nb c source ∈ (Plan.draft nb).entries :=
    (Plan.mem_entries_iff hV).mpr ⟨c, hc, source, hs, rfl⟩
  have h := Survey.answered_of_not_stale (e.enrollAll nb).records (Plan.sound_draft hV) hx
  simp only [Plan.id_entryAt, Plan.requested_entryAt, computed_recordOf, answered_recordOf,
    consulted_recordOf] at h
  obtain ⟨hreq, hinputs⟩ := h hne hstale
  refine ⟨hreq, fun u hu => ?_⟩
  obtain ⟨x, hx, hid, hanswered, hcomputed⟩ := hinputs u hu
  obtain ⟨d, hd, source', _, rfl⟩ := (Plan.mem_entries_iff hV).mp hx
  rw [Plan.id_entryAt] at hid
  rw [Plan.requested_entryAt] at hanswered
  exact ⟨d, hd, hid, hanswered, hcomputed⟩

theorem quiet_recordOf_iff {plan : Plan κ} :
    Survey.Quiet plan (Survey.recordOf (e.enrollAll nb).records) v ↔
      Survey.Quiet plan e.imprint v := by
  constructor
  · rintro ⟨hanswered, hconsulted, hcomputed⟩
    simp only [answered_recordOf, computed_recordOf, consulted_recordOf] at *
    exact ⟨hanswered, hconsulted, hcomputed⟩
  · rintro ⟨hanswered, hconsulted, hcomputed⟩
    refine ⟨?_, ?_, ?_⟩ <;>
      simp only [answered_recordOf, computed_recordOf, consulted_recordOf] <;> assumption

theorem calm_recordOf_iff {plan : Plan κ} :
    Survey.Calm plan (Survey.recordOf (e.enrollAll nb).records) v ↔
      Survey.Calm plan e.imprint v :=
  forall_congr' fun _ => imp_congr_right fun _ => quiet_recordOf_iff

theorem contains_of_mem_order (hV : nb.Valid) (h : v ∈ (Plan.draft nb).order) :
    (e.enrollAll nb).records.contains v = true :=
  contains_enrollAll_iff.mpr (Or.inr ((Plan.mem_order_draft_iff hV).mp h))

theorem not_stale_of_calm (hV : nb.Valid) (h : Survey.Calm (Plan.draft nb) e.imprint v) :
    v ∉ (e.survey nb).stale := by
  exact Survey.Calm.not_stale (Plan.sound_draft hV) (fun id hid => contains_of_mem_order hV hid)
    (calm_recordOf_iff.mpr h)

end Engine

namespace World

variable {runner : Runner κ ν} {settings : Settings} {w : World κ ν} {u v : CellId}

theorem mem_codeIds_of_feeds {nb : Notebook κ} (hV : nb.Valid)
    (h : (Plan.draft nb).graph.Feeds u v) : u ∈ nb.codeIds ∧ v ∈ nb.codeIds := by
  obtain ⟨hu, hv⟩ := (Plan.sound_draft hV).feeds_mem h
  exact ⟨(Plan.mem_order_draft_iff hV).mp hu, (Plan.mem_order_draft_iff hV).mp hv⟩

theorem mem_codeIds_of_reach {nb : Notebook κ} (hV : nb.Valid) (hv : v ∈ nb.codeIds)
    (h : ReflTransGen (Plan.graphOf nb).Feeds u v) : u ∈ nb.codeIds := by
  rcases ReflTransGen.cases_head h with rfl | ⟨x, hux, _⟩
  · exact hv
  · exact (mem_codeIds_of_feeds hV hux).1

theorem computed_ne_latest (h : w.Consistent) (id : CellId) :
    (w.engine.imprint id).computed ≠ .latest := by
  intro hlatest
  have hle := h.computed_le id
  rw [hlatest] at hle
  exact Clock.now_ne_latest _ (Time.latest_le_iff.mp hle)

/-- A cell that is not stale, its inputs of today and those of its last run are as they were when it
ran last. -/
theorem unchanged_of_not_stale (hw : Reachable runner settings w) {c : Cell κ}
    (hc : c ∈ w.notebook.codeCells) (hstale : c.id ∉ (w.engine.survey w.notebook).stale) :
    ∃ w₀, LastRun runner settings w₀ w c.id ∧
      c.id ∈ Notebook.unchangedIds w₀.notebook w.notebook ∧
      ∀ u, (Plan.graphOf w.notebook).Feeds u c.id ∨ u ∈ (Plan.graphOf w₀.notebook).sources c.id →
        u ∈ Notebook.unchangedIds w₀.notebook w.notebook := by
  have hV := hw.consistent.valid
  obtain ⟨hreq, hinputs⟩ := Engine.answered_of_not_stale hV hc
    (computed_ne_latest hw.consistent c.id) hstale
  obtain ⟨w₀, hlast⟩ := exists_last_run hw (ne_blank_of_requested hV hc hreq)
  have hw₀ := hlast.reachable.consistent
  refine ⟨w₀, hlast, (mem_unchangedIds hw₀ hlast.later hc hreq (le_of_eq hlast.computed_eq)).1,
    fun u hu => ?_⟩
  rw [← hlast.consulted_eq] at hu
  obtain ⟨d, hd, rfl, hanswered, hcomputed⟩ := hinputs u hu
  exact (mem_unchangedIds hw₀ hlast.later hd hanswered (hlast.computed_eq ▸ hcomputed)).1

theorem quiet_of_not_stale (hw : Reachable runner settings w) {c : Cell κ}
    (hc : c ∈ w.notebook.codeCells) (hstale : c.id ∉ (w.engine.survey w.notebook).stale) :
    Survey.Quiet (Plan.draft w.notebook) w.engine.imprint c.id := by
  have hV := hw.consistent.valid
  obtain ⟨hreq, hinputs⟩ := Engine.answered_of_not_stale hV hc
    (computed_ne_latest hw.consistent c.id) hstale
  obtain ⟨w₀, hlast, hself, hkept⟩ := unchanged_of_not_stale hw hc hstale
  have hcells := hlast.later.filter_unchanged hlast.reachable.consistent
  have hsame : (Plan.graphOf w.notebook).inputs c.id = (Plan.graphOf w₀.notebook).inputs c.id := by
    refine Plan.inputs_eq_of_filter
      (fun u => decide (u ∈ Notebook.unchangedIds w₀.notebook w.notebook)) hcells ?_
      (fun u hu => ?_) fun u hu => ?_
    · exact decide_eq_true hself
    · exact decide_eq_true (hkept u (Or.inl hu))
    · exact decide_eq_true (hkept u (Or.inr (Graph.mem_sources_iff.mpr hu)))
  refine ⟨fun y hy hyid => ?_, ?_, fun u hu => ?_⟩
  · obtain ⟨d, hd, source, _, rfl⟩ := (Plan.mem_entries_iff hV).mp hy
    rw [Plan.id_entryAt] at hyid
    rw [Plan.requested_entryAt, hV.eq_of_id_eq hd hc hyid]
    exact hreq
  · rw [hlast.consulted_eq]
    change (((Plan.graphOf w₀.notebook).inputs c.id).map Prod.fst).eraseDups = _
    rw [← hsame]
    rfl
  · obtain ⟨d, _, rfl, _, hcomputed⟩ := hinputs u (Or.inl hu)
    exact hcomputed

theorem calm_of_not_stale (hw : Reachable runner settings w) (hv : v ∈ w.notebook.codeIds)
    (h : ∀ u, ReflTransGen (Plan.draft w.notebook).graph.Feeds u v →
      u ∉ (w.engine.survey w.notebook).stale) :
    Survey.Calm (Plan.draft w.notebook) w.engine.imprint v := by
  have hV := hw.consistent.valid
  intro u hu
  obtain ⟨c, hc, rfl⟩ := List.mem_map.mp (mem_codeIds_of_reach hV hv hu)
  exact quiet_of_not_stale hw hc (h c.id hu)

/-! ## Quietness through a tick -/

theorem computed_tick_of_serves (h : w.Consistent) (hv : w.engine.Serves w.notebook v) :
    ((w.move runner .tick).engine.imprint v).computed = w.engine.clock.advance.now := by
  obtain ⟨x, _, _, result, hspec⟩ := Engine.served_spec runner h.valid hv
  exact congrArg Record.computed hspec

theorem computed_lt_tick (h : w.Consistent) (id : CellId) :
    (w.engine.imprint id).computed < w.engine.clock.advance.now :=
  Clock.lt_now_advance_of_le (h.computed_le id)

theorem quiet_tick_of_serves (runner : Runner κ ν) (h : w.Consistent)
    (hv : w.engine.Serves w.notebook v) :
    Survey.Quiet (Plan.draft w.notebook) (w.move runner .tick).engine.imprint v := by
  have hP := Plan.sound_draft h.valid
  obtain ⟨x, hx, rfl, result, hspec⟩ := Engine.served_spec runner h.valid hv
  have himprint : (w.move runner .tick).engine.imprint x.id = _ := hspec
  refine ⟨fun y hy hid => ?_, ?_, fun u _ => ?_⟩
  · rw [himprint, hP.eq_of_id_eq hy hx hid]
    exact le_rfl
  · rw [himprint]
    exact hP.inputIds_eq hx
  · rw [himprint]
    exact now_tick runner h.valid ▸ (h.tick runner).computed_le u

theorem imprint_tick_of_not_serves (runner : Runner κ ν) (h : w.Consistent)
    (hv : v ∈ w.notebook.codeIds) (hserves : ¬ w.engine.Serves w.notebook v) :
    (w.move runner .tick).engine.imprint v = w.engine.imprint v :=
  Engine.imprint_tick_of_not_serves h.valid hv hserves

theorem quiet_tick_of_not_serves (h : w.Consistent) (hv : v ∈ w.notebook.codeIds)
    (hserves : ¬ w.engine.Serves w.notebook v)
    (hinputs : ∀ u, (Plan.draft w.notebook).graph.Feeds u v → ¬ w.engine.Serves w.notebook u)
    (hquiet : Survey.Quiet (Plan.draft w.notebook) w.engine.imprint v) :
    Survey.Quiet (Plan.draft w.notebook) (w.move runner .tick).engine.imprint v := by
  have himprint := imprint_tick_of_not_serves runner h hv hserves
  refine ⟨himprint ▸ hquiet.answered, himprint ▸ hquiet.consulted, fun u hu => ?_⟩
  have hmem := (mem_codeIds_of_feeds h.valid hu).1
  rw [himprint, imprint_tick_of_not_serves runner h hmem (hinputs u hu)]
  exact hquiet.computed u hu

theorem not_quiet_tick (h : w.Consistent) (hf : (Plan.draft w.notebook).graph.Feeds u v)
    (hu : w.engine.Serves w.notebook u) (hv : ¬ w.engine.Serves w.notebook v) :
    ¬ Survey.Quiet (Plan.draft w.notebook) (w.move runner .tick).engine.imprint v := by
  intro hquiet
  have hle := hquiet.computed u hf
  rw [computed_tick_of_serves h hu,
    imprint_tick_of_not_serves runner h (mem_codeIds_of_feeds h.valid hf).2 hv] at hle
  exact absurd hle (not_le_of_gt (computed_lt_tick h v))

theorem not_serves_of_calm (h : w.Consistent)
    (hv : Survey.Calm (Plan.draft w.notebook) w.engine.imprint v) :
    ¬ w.engine.Serves w.notebook v := fun hserves =>
  Engine.not_stale_of_calm h.valid hv (Engine.mem_stale_of_serves h.valid hserves)

theorem Calm.of_feeds {plan : Plan κ} {shown : CellId → Record ν}
    (h : Survey.Calm plan shown v) (hu : ReflTransGen plan.graph.Feeds u v) :
    Survey.Calm plan shown u := fun x hx => h x (hx.trans hu)

/-- What is calm stays calm, and keeps its imprint. -/
theorem calm_tick (runner : Runner κ ν) (h : w.Consistent) (hv : v ∈ w.notebook.codeIds)
    (hcalm : Survey.Calm (Plan.draft w.notebook) w.engine.imprint v) :
    Survey.Calm (Plan.draft w.notebook) (w.move runner .tick).engine.imprint v := by
  intro u hu
  have hmem := mem_codeIds_of_reach h.valid hv hu
  refine quiet_tick_of_not_serves h hmem (not_serves_of_calm h (Calm.of_feeds hcalm hu)) ?_
    (hcalm u hu)
  exact fun x hx => not_serves_of_calm h (Calm.of_feeds hcalm (.head hx hu))

/-! ## Nothing stale -/

/-- The next tick finds nothing stale. -/
def Settled (w : World κ ν) : Prop := (w.engine.survey w.notebook).stale = []

instance (w : World κ ν) : Decidable w.Settled := inferInstanceAs (Decidable (_ = []))

theorem isSettled_tick_iff :
    (w.engine.tick runner w.notebook).1.isSettled = true ↔ w.Settled := List.isEmpty_iff

theorem not_serves_of_settled (hw : w.Consistent) (hsettled : w.Settled) :
    ¬ w.engine.Serves w.notebook v := by
  intro hserves
  have hstale := Engine.mem_stale_of_serves hw.valid hserves
  rw [hsettled] at hstale
  cases hstale

theorem imprint_tick_of_settled (runner : Runner κ ν) (hw : w.Consistent) (hsettled : w.Settled)
    {id : CellId} (hid : id ∈ w.notebook.codeIds) :
    (w.move runner .tick).engine.imprint id = w.engine.imprint id :=
  imprint_tick_of_not_serves runner hw hid (not_serves_of_settled hw hsettled)

end World

end Recalc
