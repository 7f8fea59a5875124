import Recalc.Proofs.Engine.Settling

/-!
# Reruns are minimal

An engine that has come to rest is given a changed notebook. If the plan of that notebook has no
faults, the cells that the next tick finds stale are exactly the cells that run until the engine rests
again, each of them once and after those that it reads from.

What reads from a stale cell is stale at that tick (`staleClosed_edit`). From then on every tick runs a
stale cell that reads from no stale cell, and takes it out of the stale cells without adding
another (`rerun_step`).
-/

namespace Recalc

open Relation
open scoped Time

variable {κ ν : Type}

namespace World

variable {runner : Runner κ ν} {settings : Settings} {w : World κ ν}

/-- Nothing has happened yet, or the last tick found nothing stale. -/
def AtRest (runner : Runner κ ν) (settings : Settings) (w : World κ ν) : Prop :=
  w = start settings ∨
    ∃ w₀, Reachable runner settings w₀ ∧ w₀.Settled ∧ w = w₀.move runner .tick

def edit (w : World κ ν) (calls : List (Call κ)) : World κ ν :=
  { w with notebook := w.notebook.replay calls }

theorem AtRest.reachable (h : AtRest runner settings w) : Reachable runner settings w := by
  rcases h with rfl | ⟨w₀, hw₀, _, rfl⟩
  · exact .start
  · exact .move .tick hw₀

theorem later_edit (runner : Runner κ ν) (w : World κ ν) (calls : List (Call κ)) :
    Later runner w (w.edit calls) := by
  induction calls generalizing w with
  | nil => exact .refl
  | cons call rest ih => exact .head ⟨.call call, rfl⟩ (ih (w.move runner (.call call)))

def StaleClosed (w : World κ ν) : Prop :=
  ∀ u v, (Plan.graphOf w.notebook).Feeds u v → u ∈ (w.engine.survey w.notebook).stale →
    v ∈ (w.engine.survey w.notebook).stale

theorem quiet_tick_of_settled {w₀ : World κ ν} (hw₀ : Reachable runner settings w₀)
    (hsettled : w₀.Settled) {c : Cell κ} (hc : c ∈ w₀.notebook.codeCells) :
    Survey.Quiet (Plan.draft w₀.notebook) (w₀.move runner .tick).engine.imprint c.id := by
  have hw := hw₀.consistent
  have hnone : ∀ v, ¬ w₀.engine.Serves w₀.notebook v := fun _ => not_serves_of_settled hw hsettled
  exact quiet_tick_of_not_serves hw (List.mem_map_of_mem hc) (hnone _) (fun u _ => hnone u)
    (quiet_of_not_stale hw₀ hc (hsettled ▸ List.not_mem_nil))

/-- Cells that have answered their requests have not been touched by the calls, and their last runs
are in the order of the arcs. -/
theorem ordered_edit (h : AtRest runner settings w) (calls : List (Call κ)) :
    Survey.Ordered (Plan.draft (w.edit calls).notebook)
      ((w.edit calls).engine.enrollAll (w.edit calls).notebook).records := by
  have hlater := later_edit runner w calls
  have hw := h.reachable.consistent
  have hV := (hlater.consistent hw).valid
  intro x hx hanswered u hu y hy hid hanswered'
  obtain ⟨c, hc, source, _, rfl⟩ := (Plan.mem_entries_iff hV).mp hx
  obtain ⟨d, hd, source', _, rfl⟩ := (Plan.mem_entries_iff hV).mp hy
  simp only [Engine.answered_recordOf, Engine.computed_recordOf, Engine.consulted_recordOf,
    Plan.id_entryAt, Plan.requested_entryAt] at *
  subst hid
  have himprint : ∀ id, (w.edit calls).engine.imprint id = w.engine.imprint id := fun _ => rfl
  rw [himprint] at hanswered hanswered' hu
  rw [himprint, himprint]
  rcases h with rfl | ⟨w₀, hw₀, hsettled, rfl⟩
  · exact absurd (hV.requested_pos c hc) (not_lt_of_ge hanswered)
  · have hkept : ∀ b ∈ ((w₀.move runner .tick).edit calls).notebook.codeCells,
        b.requested ≤ ((w₀.move runner .tick).engine.imprint b.id).answered →
        decide (b.id ∈ Notebook.unchangedIds (w₀.move runner .tick).notebook
          ((w₀.move runner .tick).edit calls).notebook) = true := fun b hb hle =>
      decide_eq_true (Notebook.mem_unchangedIds_iff.mpr
        ⟨b, hb, le_trans hle (hw.answered_le b.id), rfl⟩)
    have hcells := hlater.continues.filter_unchanged hw.valid hV
    have hold : c ∈ w₀.notebook.codeCells :=
      hlater.continues.mem_past hc (le_trans hanswered (hw.answered_le c.id))
    have hquiet := quiet_tick_of_settled hw₀ hsettled hold
    refine hquiet.computed d.id ?_
    cases hu with
    | inl hu =>
      have hfeeds := Plan.feeds_iff_of_filter
        (fun id => decide (id ∈ Notebook.unchangedIds (w₀.move runner .tick).notebook
          ((w₀.move runner .tick).edit calls).notebook))
        hcells (hkept d hd hanswered') (hkept c hc hanswered)
      exact hfeeds.mp hu
    | inr hu =>
      rw [hquiet.consulted] at hu
      exact Graph.mem_sources_iff.mp hu

theorem staleClosed_edit (h : AtRest runner settings w) (calls : List (Call κ))
    (hfaults : (Plan.draft (w.edit calls).notebook).faults = []) :
    (w.edit calls).StaleClosed := by
  have hedit := (later_edit runner w calls).consistent h.reachable.consistent
  intro u v hf hu
  refine (ordered_edit h calls).stale_of_feeds (Plan.sound_draft hedit.valid) hfaults hf ?_ hu
  rw [Engine.computed_recordOf]
  exact computed_ne_latest hedit v

section Step

variable (hw : Reachable runner settings w) (hfaults : (Plan.draft w.notebook).faults = [])

include hw hfaults

omit hw in
theorem serves_iff_of_no_faults {r : Runnable κ}
    (hr : (w.engine.choice w.notebook).runnable = some r) (id : CellId) :
    w.engine.Serves w.notebook id ↔ id = r.node.id := by
  constructor
  · rintro (⟨f, hf, _⟩ | ⟨r', hr', rfl⟩)
    · have hnil := (Engine.mem_faults_choice_iff.mp hf).1
      rw [hfaults] at hnil
      cases hnil
    · rw [hr, Option.some.injEq] at hr'
      rw [hr']
  · rintro rfl
    exact Or.inr ⟨r, hr, rfl⟩

theorem exists_runnable_of_no_faults (hstale : ¬ w.Settled) :
    ∃ r, (w.engine.choice w.notebook).runnable = some r ∧
      r.node.id ∈ (w.engine.survey w.notebook).stale ∧
      ∀ u, (Plan.graphOf w.notebook).Feeds u r.node.id →
        u ∉ (w.engine.survey w.notebook).stale := by
  have hV := hw.consistent.valid
  have hP := Plan.sound_draft hV
  obtain ⟨v, hv⟩ := List.exists_mem_of_ne_nil _ hstale
  rcases Choice.ofSurvey_nonempty (w.engine.enrollAll w.notebook).records hP
    (fun _ => Survey.mem_order_of_mem_stale) hv with ⟨f, hf⟩ | ⟨r, hr⟩
  · have hnil := (Choice.mem_faults_ofSurvey_iff.mp hf).1
    rw [hfaults] at hnil
    cases hnil
  · obtain ⟨⟨hmem, hcandidate⟩, _⟩ := Choice.of_runnable_ofSurvey hr
    obtain ⟨hin, hinputs⟩ := (Choice.isCandidate_iff hP hmem).mp hcandidate
    refine ⟨r, hr, hin, fun u hf hu => hinputs u hf hu ?_⟩
    refine (Plan.canRun_or_faulty (Survey.mem_order_of_mem_stale hu)).resolve_right ?_
    rintro ⟨f, hf, _⟩
    rw [hfaults] at hf
    cases hf

omit hfaults in
theorem stale_tick_of_not_serves {id : CellId} (hid : id ∈ (w.engine.survey w.notebook).stale)
    (hserves : ¬ w.engine.Serves w.notebook id) :
    id ∈ ((w.move runner .tick).engine.survey w.notebook).stale := by
  have hc := hw.consistent
  have hV := hc.valid
  have hadvanced : Survey.Advanced (Plan.draft w.notebook) w.engine.clock.advance.now
      (w.engine.enrollAll w.notebook).records
      ((w.move runner .tick).engine.enrollAll w.notebook).records := by
    refine ⟨fun id h => ?_, fun x hx => ?_⟩
    · cases Engine.contains_enrollAll_iff.mp h with
      | inl h =>
        exact Engine.contains_enrollAll_iff.mpr (Or.inr ((Engine.contains_tick runner hV).mp h))
      | inr h => exact Engine.contains_enrollAll_iff.mpr (Or.inr h)
    · rw [Engine.answered_recordOf, Engine.answered_recordOf, Engine.computed_recordOf,
        Engine.computed_recordOf, Engine.consulted_recordOf, Engine.consulted_recordOf]
      by_cases hx' : w.engine.Serves w.notebook x.id
      · exact Or.inl (le_of_eq (computed_tick_of_serves hc hx').symm)
      · right
        rw [imprint_tick_of_not_serves runner hc (Engine.mem_codeIds_of_mem_entries hV hx) hx']
        exact ⟨rfl, rfl, rfl⟩
  refine hadvanced.stale_of_stale ?_ ?_ hid
  · rw [Engine.computed_recordOf, Engine.computed_recordOf,
      imprint_tick_of_not_serves runner hc (Engine.mem_codeIds_of_mem_stale hV hid) hserves]
  · rw [Engine.computed_recordOf]
    exact computed_lt_tick hc id

omit hfaults in
theorem calm_of_staleClosed (hclosed : w.StaleClosed) {id : CellId}
    (hid : id ∈ w.notebook.codeIds) (hstale : id ∉ (w.engine.survey w.notebook).stale) :
    Survey.Calm (Plan.draft w.notebook) w.engine.imprint id := by
  refine calm_of_not_stale hw hid fun u hu => ?_
  induction hu using ReflTransGen.head_induction_on with
  | refl => exact hstale
  | @head u x hux _ ih => exact fun h => ih (hclosed u x hux h)

theorem mem_stale_tick_iff (hclosed : w.StaleClosed) {r : Runnable κ}
    (hr : (w.engine.choice w.notebook).runnable = some r)
    (hinputs : ∀ u, (Plan.graphOf w.notebook).Feeds u r.node.id →
      u ∉ (w.engine.survey w.notebook).stale) (id : CellId) :
    id ∈ ((w.move runner .tick).engine.survey w.notebook).stale ↔
      id ∈ (w.engine.survey w.notebook).stale ∧ id ≠ r.node.id := by
  have hc := hw.consistent
  have hV := hc.valid
  have hserves := serves_iff_of_no_faults hfaults hr
  have hcalm : ∀ u ∈ w.notebook.codeIds, u ∉ (w.engine.survey w.notebook).stale →
      Survey.Calm (Plan.draft w.notebook) (w.move runner .tick).engine.imprint u :=
    fun u hu hstale => calm_tick runner hc hu (calm_of_staleClosed hw hclosed hu hstale)
  constructor
  · intro hid
    have hmem : id ∈ w.notebook.codeIds := Engine.mem_codeIds_of_mem_stale hV hid
    constructor
    · by_contra hstale
      exact Engine.not_stale_of_calm hV (hcalm id hmem hstale) hid
    · rintro rfl
      refine Engine.not_stale_of_calm hV (fun u hu => ?_) hid
      rcases ReflTransGen.cases_tail hu with heq | ⟨x, hux, hxr⟩
      · exact heq ▸ quiet_tick_of_serves runner hc ((hserves _).mpr rfl)
      · exact hcalm x (mem_codeIds_of_feeds hV hxr).1 (hinputs x hxr) u hux
  · rintro ⟨hid, hne⟩
    exact stale_tick_of_not_serves hw hid fun h => hne ((hserves id).mp h)

/-- One tick runs one stale cell that reads from no stale cell, and it alone is no longer stale. -/
theorem rerun_step (hclosed : w.StaleClosed) (hstale : ¬ w.Settled) :
    ∃ request : Request κ ν,
      (w.move runner .tick).engine.requests = request :: w.engine.requests ∧
      (∀ u, (Plan.graphOf w.notebook).Feeds u request.cell →
        u ∉ (w.engine.survey w.notebook).stale) ∧
      (w.engine.survey w.notebook).stale.Perm
        (request.cell :: ((w.move runner .tick).engine.survey w.notebook).stale) ∧
      (w.move runner .tick).StaleClosed := by
  have hV := hw.consistent.valid
  obtain ⟨r, hr, hin, hinputs⟩ := exists_runnable_of_no_faults hw hfaults hstale
  obtain ⟨request, hcell, _, _, hrequests, _⟩ := Engine.imprint_tick_runnable runner hV hr
  have hmem := mem_stale_tick_iff hw hfaults hclosed hr hinputs
  refine ⟨request, hrequests, hcell ▸ hinputs, ?_, ?_⟩
  · have hnodup : (r.node.id :: ((w.move runner .tick).engine.survey w.notebook).stale).Nodup :=
      List.nodup_cons.mpr ⟨fun h => ((hmem _).mp h).2 rfl, Engine.nodup_stale _ _⟩
    rw [hcell, List.perm_ext_iff_of_nodup (Engine.nodup_stale _ _) hnodup]
    intro id
    rw [List.mem_cons, hmem id]
    constructor
    · intro h
      by_cases hid : id = r.node.id
      · exact Or.inl hid
      · exact Or.inr ⟨h, hid⟩
    · rintro (rfl | h)
      · exact hin
      · exact h.1
  · intro u v hf hu
    obtain ⟨hu, _⟩ := (hmem u).mp hu
    refine (hmem v).mpr ⟨hclosed u v hf hu, ?_⟩
    rintro rfl
    exact hinputs u hf hu

end Step

/-- A row of such ticks runs every stale cell once, inputs first. -/
theorem reruns_of_staleClosed {n : Nat} (hw : Reachable runner settings w)
    (hfaults : (Plan.draft w.notebook).faults = []) (hclosed : w.StaleClosed)
    (hlength : (w.engine.survey w.notebook).stale.length = n) :
    (∀ i, i < n → ¬ (w.afterTicks runner i).Settled) ∧ (w.afterTicks runner n).Settled ∧
      ∃ requests : List (Request κ ν),
        (w.afterTicks runner n).engine.requests = requests.reverse ++ w.engine.requests ∧
        (requests.map Request.cell).Perm (w.engine.survey w.notebook).stale ∧
        ∀ u ∈ (w.engine.survey w.notebook).stale, ∀ v ∈ (w.engine.survey w.notebook).stale,
          (Plan.graphOf w.notebook).Feeds u v →
            (requests.map Request.cell).idxOf u < (requests.map Request.cell).idxOf v := by
  induction n generalizing w with
  | zero =>
    have hnil : (w.engine.survey w.notebook).stale = [] := List.length_eq_zero_iff.mp hlength
    refine ⟨fun i hi => absurd hi (Nat.not_lt_zero i), hnil, [], rfl, by rw [hnil]; rfl, ?_⟩
    rw [hnil]
    exact fun u hu => absurd hu List.not_mem_nil
  | succ n ih =>
    have hstale : ¬ w.Settled := by
      intro hsettled
      rw [hsettled] at hlength
      cases hlength
    -- what is stale after the first tick is what was stale before it, without the cell that ran
    obtain ⟨request, hrequests, hinputs, hperm, hclosed'⟩ := rerun_step hw hfaults hclosed hstale
    have hlength' : ((w.move runner .tick).engine.survey w.notebook).stale.length = n := by
      have := hperm.length_eq
      rw [List.length_cons] at this
      omega
    obtain ⟨hbefore, hafter, rest, hrest, hcells, horder⟩ :=
      ih (.move .tick hw) hfaults hclosed' hlength'
    refine ⟨fun i hi => ?_, hafter, request :: rest, ?_, ?_, fun u hu v hv hf => ?_⟩
    · cases i with
      | zero => exact hstale
      | succ i => exact hbefore i (by omega)
    · rw [List.reverse_cons, List.append_assoc, List.singleton_append, ← hrequests]
      exact hrest
    · exact (hcells.cons request.cell).trans hperm.symm
    · have hvne : request.cell ≠ v := fun h => hinputs u (h ▸ hf) hu
      rw [List.map_cons, List.idxOf_cons_ne _ hvne]
      by_cases hur : request.cell = u
      · rw [hur, List.idxOf_cons_self]
        exact Nat.succ_pos _
      · rw [List.idxOf_cons_ne _ hur]
        have hu' := (List.mem_cons.mp (hperm.mem_iff.mp hu)).resolve_left fun h => hur h.symm
        have hv' := (List.mem_cons.mp (hperm.mem_iff.mp hv)).resolve_left fun h => hvne h.symm
        exact Nat.succ_lt_succ (horder u hu' v hv' hf)

theorem requests_tick_of_settled (runner : Runner κ ν) (hV : w.notebook.Valid)
    (hsettled : w.Settled) :
    (w.move runner .tick).engine.requests = w.engine.requests := by
  refine Engine.requests_tick_of_none ?_
  cases hr : (w.engine.choice w.notebook).runnable with
  | none => rfl
  | some r =>
    have hstale := Engine.mem_stale_of_serves hV (Or.inr ⟨r, hr, rfl⟩)
    rw [hsettled] at hstale
    cases hstale

/-- An engine at rest that is given a changed notebook without faults comes to rest again after as many
ticks as the next tick finds stale cells. It asks for one run of each of these cells and of no
other, and for that of a cell after those of its inputs. -/
theorem reruns_minimal (hrest : AtRest runner settings w) (hlimit : settings.maxTicks = none)
    (calls : List (Call κ)) (hfaults : (Plan.draft (w.edit calls).notebook).faults = [])
    (patience : Nat)
    (hpatience : ((w.edit calls).engine.tick runner (w.edit calls).notebook).1.stale.length <
      patience) :
    let nb := (w.edit calls).notebook
    let stale := (w.engine.tick runner nb).1.stale
    ∃ (e : Engine κ ν) (requests : List (Request κ ν)),
      w.engine.settle runner nb patience = (.settled stale.length, e) ∧
      e.requests = requests.reverse ++ w.engine.requests ∧ stale.Nodup ∧
      (requests.map Request.cell).Perm stale ∧
      ∀ u ∈ stale, ∀ v ∈ stale, (Plan.draft nb).graph.Feeds u v →
        (requests.map Request.cell).idxOf u < (requests.map Request.cell).idxOf v := by
  intro nb stale
  have hw : Reachable runner settings (w.edit calls) :=
    hrest.reachable.later (later_edit runner w calls)
  obtain ⟨hbefore, hsettled, requests, hrequests, hperm, horder⟩ :=
    reruns_of_staleClosed hw hfaults (staleClosed_edit hrest calls hfaults) rfl
  refine ⟨((w.edit calls).afterTicks runner (stale.length + 1)).engine, requests, ?_, ?_,
    Engine.nodup_stale _ _, hperm, horder⟩
  · have hsettle := settleFrom_of_settled_afterTicks hw hlimit hbefore hsettled hpatience 0
    rw [Nat.zero_add] at hsettle
    exact hsettle
  · have hlast := requests_tick_of_settled runner
      (hw.afterTicks _).consistent.valid hsettled
    rw [afterTicks_succ]
    exact hlast.trans hrequests

/-- After a new first cell both of two cells run again, the first before the second. -/
theorem reruns_minimal_pair :
    let runner : Runner Nat Nat := fun q => pairAnswer q.cell q.code q.inputs
    let w := (start Settings.standard).play runner (pairMoves 7 ++ [.tick])
    let nb := w.notebook.replay [.updateCode ⟨0⟩ (pairSource [] ["a"] 5)]
    (w.engine.tick runner nb).1.stale = [⟨0⟩, ⟨1⟩] ∧
      ∃ (e : Engine Nat Nat) (requests : List (Request Nat Nat)),
        w.engine.settle runner nb 3 = (.settled 2, e) ∧
        e.requests = requests.reverse ++ w.engine.requests ∧
        (requests.map Request.cell).Perm [⟨0⟩, ⟨1⟩] ∧
        (requests.map Request.cell).idxOf ⟨0⟩ < (requests.map Request.cell).idxOf ⟨1⟩ := by
  intro runner w nb
  have hstale : (w.engine.tick runner nb).1.stale = [⟨0⟩, ⟨1⟩] := by decide +kernel
  have hrest : AtRest runner Settings.standard w :=
    Or.inr ⟨(start Settings.standard).play runner (pairMoves 7),
      reachable_iff_play.mpr ⟨pairMoves 7, rfl⟩, by decide +kernel, rfl⟩
  obtain ⟨e, requests, hsettle, hrequests, _, hperm, horder⟩ :=
    reruns_minimal hrest rfl [.updateCode ⟨0⟩ (pairSource [] ["a"] 5)] (by decide +kernel) 3
      (by decide +kernel)
  have hfeeds : (Plan.draft nb).graph.Feeds ⟨0⟩ ⟨1⟩ := by decide +kernel
  refine ⟨hstale, e, requests, ?_, hrequests, ?_, ?_⟩
  · exact (congrArg (fun l => (Settling.settled l.length, e)) hstale) ▸ hsettle
  · exact hstale ▸ hperm
  · exact horder ⟨0⟩ (hstale ▸ by decide) ⟨1⟩ (hstale ▸ by decide) hfeeds

end World

end Recalc
