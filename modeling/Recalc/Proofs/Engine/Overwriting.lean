import Recalc.Proofs.Engine.Quiet
import Recalc.Proofs.SecondPass

/-!
# What the second visits take back

A cell is stale if one of its visits found it due later than its last run (`mem_stale_ofPlan_iff`), but
it keeps the due time of its last visit alone. The two disagree where the second visit of a faulty cell
takes back what the first one found. The first visit can find too much in one way only: the cell has
dropped an input that comes after it, and presumes that the input is gone (`Presumes`), or another cell
has told it so (`exists_presumes_of_final_lt`).

In a reachable world the cell that presumes too much is due later than its last run all the same: an
input is dropped by a change of one of the two cells, so one of them has been requested, or the input has
run, since the last run of the reader (`lt_due_of_presumes`). This does not hold for the cells that it
tells. They are stale though they can end with the time of their own last run
(`stale_with_time_of_last_run`).
-/

namespace Recalc

open Relation
open scoped Time

namespace Survey

variable {κ ν : Type} {plan : Plan κ} {records : Records ν} {s : Survey} {e : Entry κ}
variable {id u v x : CellId} {t : Time}

theorem mem_stale_run_iff_of_nodup {l : List (Entry κ)} (hn : (l.map Entry.id).Nodup) :
    id ∈ (run records s l).stale ↔ id ∈ s.stale ∨
      id ∈ l.map Entry.id ∧ (recordOf records id).computed < (run records s l).inputTime id := by
  rw [mem_stale_run_iff]
  have hdue : ∀ before e after, l = before ++ e :: after →
      (run records s l).inputTime e.id = visitDue records (run records s before) e := by
    intro before e after hl
    rw [inputTime, (due?_of_split records s hn hl).1, Option.getD_some]
  refine or_congr_right ⟨?_, ?_⟩
  · rintro ⟨before, e, after, hl, rfl, hlt⟩
    exact ⟨List.mem_map_of_mem (hl ▸ by simp), hdue before e after hl ▸ hlt⟩
  · rintro ⟨hid, hlt⟩
    obtain ⟨e, he, rfl⟩ := List.mem_map.mp hid
    obtain ⟨before, after, hl⟩ := List.append_of_mem he
    exact ⟨before, e, after, hl, rfl, hdue before e after hl ▸ hlt⟩

/-- A cell is stale if one of its visits found it due later than its last run. -/
theorem mem_stale_ofPlan_iff (hP : plan.Sound) (hid : id ∈ plan.order) :
    id ∈ (ofPlan plan records).stale ↔
      (recordOf records id).computed < (firstPass plan records).inputTime id ∨
        (recordOf records id).computed < (ofPlan plan records).inputTime id := by
  have hsecond : ((plan.entries.filter Entry.isFaulty).map Entry.id).Nodup :=
    hP.nodup_order.sublist (List.filter_sublist.map Entry.id)
  have hfirst : id ∈ (firstPass plan records).stale ↔
      (recordOf records id).computed < (firstPass plan records).inputTime id := by
    rw [firstPass, mem_stale_run_iff_of_nodup hP.nodup_order]
    simp only [start, List.not_mem_nil, false_or, and_iff_right_iff_imp]
    exact fun _ => hid
  rw [ofPlan_eq_run_firstPass, mem_stale_run_iff_of_nodup hsecond, hfirst,
    ← ofPlan_eq_run_firstPass]
  constructor
  · exact Or.imp_right And.right
  · rintro (h | h)
    · exact Or.inl h
    by_cases hfaulty : plan.IsFaulty id
    · obtain ⟨e, he, rfl⟩ := Plan.mem_order_iff.mp hid
      have hmem : e ∈ plan.entries.filter Entry.isFaulty :=
        List.mem_filter.mpr ⟨he, (hP.isFaulty_iff he).mp hfaulty⟩
      exact Or.inr ⟨List.mem_map_of_mem hmem, h⟩
    · exact Or.inl (inputTime_of_not_faulty hP hfaulty ▸ h)

/-- A cell that can run has one visit only. -/
theorem mem_stale_ofPlan_iff_of_canRun (hP : plan.Sound) (h : plan.CanRun id) :
    id ∈ (ofPlan plan records).stale ↔
      (recordOf records id).computed < (ofPlan plan records).inputTime id := by
  have hid : id ∈ plan.order := by
    obtain ⟨r, hr, rfl⟩ := h
    exact List.mem_map_of_mem (Plan.mem_runnables_iff.mp hr)
  rw [mem_stale_ofPlan_iff hP hid, ← inputTime_of_not_faulty hP (hP.not_isFaulty_of_canRun h),
    or_self]

/-! ## Dropped inputs -/

/-- A faulty cell whose last run used a cell that comes after it and that it does not read any more. Its
first visit presumes that the input is gone. -/
def Presumes (plan : Plan κ) (records : Records ν) (x : CellId) : Prop :=
  plan.IsFaulty x ∧ ∃ u ∈ (recordOf records x).consulted, u ∈ plan.order ∧
    ¬ plan.graph.Feeds u x ∧ plan.order.idxOf x < plan.order.idxOf u

theorem Presumes.first_eq_latest (hP : plan.Sound) (h : Presumes plan records x) :
    (firstPass plan records).inputTime x = .latest := by
  obtain ⟨hx, u, hu, _, hdropped, hafter⟩ := h
  obtain ⟨e, he, rfl⟩ := Plan.mem_order_iff.mp hx.mem_order
  obtain ⟨s, hdue, hs⟩ := exists_first_visit hP records he
  rw [inputTime, hdue, Option.getD_some]
  cases lt_or_ge (recordOf records e.id).answered e.requested with
  | inl hreq => exact visitDue_of_lt hreq
  | inr hreq =>
    have hreads : e.node.reads u ≠ true := fun hreads =>
      hdropped ((hP.mem_inputIds_iff he).mp (Node.mem_inputIds_iff.mpr hreads))
    have hused : usedTime records e.node s u = .latest := by
      rw [usedTime, hs, if_neg (Nat.lt_asymm hafter)]
      dsimp only
      rw [if_neg hreads, ite_self]
    obtain ⟨_, _, hle⟩ := (visitDue_le_iff (s := s) hreq).mp le_rfl
    exact Time.latest_le_iff.mp (hused ▸ hle u hu)

theorem first_eq_latest_of_relays_star (hP : plan.Sound) (hx : Presumes plan records x)
    (h : ReflTransGen (Relays plan records) x v) :
    (firstPass plan records).inputTime v = .latest := by
  induction h with
  | refl => exact hx.first_eq_latest hP
  | tail _ hlast ih =>
    exact Time.latest_le_iff.mp
      (ih ▸ first_le_first hP hlast.1.mem_order hlast.2.1 hlast.2.2)

theorem usedTime_of_due? {node : Node} (hcontains : records.contains u = true)
    (hdue : s.due? u = some t) : usedTime records node s u = t := by
  rw [usedTime, if_pos hcontains, hdue]

/-- An input of the last run tells a first visit what the cell had learned before, or is presumed to be
gone. -/
theorem lt_first_or_dropped (hP : plan.Sound) (he : e ∈ plan.entries)
    (hs : ∀ u, s.due? u = if plan.order.idxOf u < plan.order.idxOf e.id
      then (firstPass plan records).due? u else none)
    (hu : u ∈ plan.order) (hcontains : records.contains u = true)
    (hlt : t < usedTime records e.node s u) :
    plan.order.idxOf u < plan.order.idxOf e.id ∧ t < (firstPass plan records).inputTime u ∨
      ¬ plan.order.idxOf u < plan.order.idxOf e.id ∧ ¬ plan.graph.Feeds u e.id := by
  by_cases hbefore : plan.order.idxOf u < plan.order.idxOf e.id
  · obtain ⟨tu, htu⟩ := exists_due?_firstPass records hu
    rw [usedTime_of_due? hcontains ((hs u).trans ((if_pos hbefore).trans htu))] at hlt
    rw [inputTime, htu]
    exact Or.inl ⟨hbefore, hlt⟩
  · refine Or.inr ⟨hbefore, fun hfeeds => ?_⟩
    have hreads : e.node.reads u = true :=
      Node.mem_inputIds_iff.mp ((hP.mem_inputIds_iff he).mpr hfeeds)
    rw [usedTime, if_pos hcontains, hs, if_neg hbefore] at hlt
    dsimp only at hlt
    rw [if_pos hreads] at hlt
    exact absurd hlt (not_lt_of_ge (Time.earliest_le _))

/-- What an entry learns at its first visit only, it learns from an earlier cell, or presumes. -/
theorem exists_relays_or_presumes (hP : plan.Sound)
    (hrecords : ∀ id ∈ plan.order, records.contains id = true) (hv : plan.IsFaulty v)
    (hle : (ofPlan plan records).inputTime v ≤ t)
    (hlater : t < (firstPass plan records).inputTime v) :
    (∃ u, Relays plan records u v ∧ t < (firstPass plan records).inputTime u) ∨
      Presumes plan records v := by
  obtain ⟨e, he, rfl⟩ := Plan.mem_order_iff.mp hv.mem_order
  obtain ⟨s, hdue, hs⟩ := exists_first_visit hP records he
  obtain ⟨s', hdue', hs'⟩ := exists_second_visit hP records he hv
  have hfirst : t < visitDue records s e := by rwa [inputTime, hdue] at hlater
  have hsecond : visitDue records s' e ≤ t := by rwa [inputTime, hdue'] at hle
  have hne : t ≠ .latest := Time.lt_latest_iff.mp (lt_of_lt_of_le hlater (Time.le_latest _))
  have hreq : e.requested ≤ (recordOf records e.id).answered := by
    by_contra hreq
    rw [visitDue_of_lt (not_le.mp hreq)] at hsecond
    exact hne (Time.latest_le_iff.mp hsecond)
  obtain ⟨hcomputed, _, hused⟩ := (visitDue_le_iff hreq).mp hsecond
  rcases (lt_visitDue_iff hreq).mp hfirst with hlt | ⟨u, hu, hlt⟩ | ⟨u, hu, hlt⟩
  · exact absurd hcomputed (not_le_of_gt hlt)
  · have hfeeds := (hP.mem_inputIds_iff he).mp hu
    rw [inputTime, hs] at hlt
    split at hlt
    · next hbefore => exact Or.inl ⟨u, ⟨hv, hbefore, Or.inl hfeeds⟩, hlt⟩
    · exact absurd hlt (not_lt_of_ge (Time.earliest_le _))
  by_cases horder : u ∈ plan.order
  · have hlooks : LooksAt plan records u e.id := Or.inr ⟨hu, hrecords u horder⟩
    rcases lt_first_or_dropped hP he hs horder (hrecords u horder) hlt with
      ⟨hbefore, hlt⟩ | ⟨hbefore, hdropped⟩
    · exact Or.inl ⟨u, ⟨hv, hbefore, hlooks⟩, hlt⟩
    · refine Or.inr ⟨hv, u, hu, horder, hdropped, ?_⟩
      refine lt_of_le_of_ne (Nat.le_of_not_lt hbefore) fun hidx => ?_
      -- what a cell presumed of itself, its second visit takes over
      obtain rfl := (List.idxOf_inj hv.mem_order).mp hidx
      have hseen := seen_le_final hP hv hlooks
      rw [if_neg hbefore] at hseen
      exact absurd (le_trans hseen hle) (not_le_of_gt hlater)
  -- an input that the plan does not list is as new to the second visit as to the first
  · have hfinal : (ofPlan plan records).due? u = none :=
      Option.not_isSome_iff_eq_none.mp fun h => horder (isSome_due?_ofPlan_iff.mp h)
    have hnone : s'.due? u = none := by
      rw [hs', hfinal, due?_firstPass_eq_none hfinal, ite_self]
    have hlatest := hused u hu
    rw [usedTime_of_notMem hP he horder hnone] at hlatest
    exact absurd (Time.latest_le_iff.mp hlatest) hne

/-- If the second visit of a cell takes back what the first one found, the cell has it from one that
presumes an input to be gone. -/
theorem exists_presumes_of_final_lt (hP : plan.Sound)
    (hrecords : ∀ id ∈ plan.order, records.contains id = true)
    (hle : (ofPlan plan records).inputTime v ≤ t)
    (hlt : t < (firstPass plan records).inputTime v) :
    ∃ x, Presumes plan records x ∧ ReflTransGen (Relays plan records) x v := by
  induction hn : plan.order.idxOf v using Nat.strongRecOn generalizing v with
  | ind n ih =>
    have hv : plan.IsFaulty v := by
      by_contra hnot
      rw [inputTime_of_not_faulty hP hnot] at hle
      exact absurd hle (not_le_of_gt hlt)
    rcases exists_relays_or_presumes hP hrecords hv hle hlt with ⟨u, hrelays, hfirst⟩ | hpresumes
    · have hfinal := le_trans (final_le_of_relays hP hrelays) hle
      obtain ⟨x, hx, hpath⟩ := ih _ (hn ▸ hrelays.2.1) hfinal hfirst rfl
      exact ⟨x, hx, hpath.tail hrelays⟩
    · exact ⟨v, hpresumes, .refl⟩

/-- A cell is stale if it is due later than its last run, or has been told by a cell that presumes an
input to be gone; there is no other way. -/
theorem mem_stale_ofPlan_iff_presumes (hP : plan.Sound)
    (hrecords : ∀ id ∈ plan.order, records.contains id = true) (hid : id ∈ plan.order)
    (hne : (recordOf records id).computed ≠ .latest) :
    id ∈ (ofPlan plan records).stale ↔
      (recordOf records id).computed < (ofPlan plan records).inputTime id ∨
        ∃ x, Presumes plan records x ∧ ReflTransGen (Relays plan records) x id := by
  rw [mem_stale_ofPlan_iff hP hid]
  constructor
  · rintro (hfirst | hfinal)
    · cases lt_or_ge (recordOf records id).computed ((ofPlan plan records).inputTime id) with
      | inl hfinal => exact Or.inl hfinal
      | inr hfinal => exact Or.inr (exists_presumes_of_final_lt hP hrecords hfinal hfirst)
    · exact Or.inl hfinal
  · rintro (hfinal | ⟨x, hx, hpath⟩)
    · exact Or.inr hfinal
    · exact Or.inl (first_eq_latest_of_relays_star hP hx hpath ▸ Time.lt_latest_iff.mpr hne)

end Survey

namespace Engine

variable {κ ν : Type} {e : Engine κ ν} {nb : Notebook κ} {id : CellId}

theorem exists_cell_of_due (hV : nb.Valid) {l : List (Entry κ)}
    (hl : ∀ x ∈ l, x ∈ (Plan.draft nb).entries) {t : Time} (hne : t ≠ .latest)
    (hdue : (Survey.run (e.enrollAll nb).records Survey.start l).due? id = some t) :
    ∃ c ∈ nb.codeCells, c.id = id ∧ c.requested ≤ (e.imprint id).answered ∧
      (e.imprint id).computed ≤ t := by
  obtain ⟨x, hx, hid, hcomputed, hanswered⟩ := Survey.of_due?_run hdue
  obtain ⟨c, hc, source, _, rfl⟩ := (Plan.mem_entries_iff hV).mp (hl x hx)
  have hreq := hanswered hne
  rw [Plan.requested_entryAt, answered_recordOf] at hreq
  rw [computed_recordOf] at hcomputed
  exact ⟨c, hc, (Plan.id_entryAt _ _ _).symm.trans hid, hreq, hcomputed⟩

end Engine

namespace World

variable {κ ν : Type} {runner : Runner κ ν} {settings : Settings} {w : World κ ν} {x : CellId}

/-- A cell still reads from the cells that its last run used, unless one of the two has been requested
or the other has run since then. -/
theorem feeds_of_consulted (hw : Reachable runner settings w) {c d : Cell κ}
    (hc : c ∈ w.notebook.codeCells) (hd : d ∈ w.notebook.codeCells)
    (hanswered : c.requested ≤ (w.engine.imprint c.id).answered)
    (hanswered' : d.requested ≤ (w.engine.imprint d.id).answered)
    (hle : (w.engine.imprint d.id).computed ≤ (w.engine.imprint c.id).computed)
    (hconsulted : d.id ∈ (w.engine.imprint c.id).consulted) :
    (Plan.graphOf w.notebook).Feeds d.id c.id := by
  obtain ⟨w₀, hlast⟩ :=
    exists_last_run hw (ne_blank_of_requested hw.consistent.valid hc hanswered)
  have hw₀ := hlast.reachable.consistent
  have hcself := mem_unchangedIds hw₀ hlast.later hc hanswered (le_of_eq hlast.computed_eq)
  have hdself := mem_unchangedIds hw₀ hlast.later hd hanswered' (hlast.computed_eq ▸ hle)
  rw [hlast.consulted_eq, Graph.mem_sources_iff] at hconsulted
  refine (Plan.feeds_iff_of_filter
    (fun u => decide (u ∈ Notebook.unchangedIds w₀.notebook w.notebook))
    (hlast.later.filter_unchanged hw₀) ?_ ?_).mpr hconsulted
  · exact decide_eq_true hdself.1
  · exact decide_eq_true hcself.1

/-- In a reachable world a cell that presumes an input to be gone is due later than its last run, as one
of the two has been requested, or the input has run, since then. -/
theorem lt_due_of_presumes (hw : Reachable runner settings w)
    (hx : Survey.Presumes (Plan.draft w.notebook) (w.engine.enrollAll w.notebook).records x) :
    (w.engine.imprint x).computed < (w.engine.survey w.notebook).inputTime x := by
  have hV := hw.consistent.valid
  have hP := Plan.sound_draft hV
  obtain ⟨hfaulty, u, hu, horder, hdropped, hafter⟩ := hx
  by_contra hnot
  have hfinal := not_lt.mp hnot
  have hseen := Survey.seen_le_final hP hfaulty
    (Or.inr ⟨hu, Engine.contains_of_mem_order hV horder⟩)
  rw [if_neg (Nat.lt_asymm hafter)] at hseen
  have hbelow : ∀ t, t ≤ (w.engine.imprint x).computed → t ≠ .latest := by
    rintro t ht rfl
    exact computed_ne_latest hw.consistent x (Time.latest_le_iff.mp ht)
  obtain ⟨tu, htu⟩ := Survey.exists_due?_firstPass (w.engine.enrollAll w.notebook).records horder
  obtain ⟨tx, htx⟩ : ∃ t, (w.engine.survey w.notebook).due? x = some t :=
    Option.isSome_iff_exists.mp (Survey.isSome_due?_ofPlan_iff.mpr hfaulty.mem_order)
  have hle : tu ≤ (w.engine.imprint x).computed := by
    rw [Survey.inputTime, htu] at hseen
    exact le_trans hseen hfinal
  rw [Survey.inputTime, htx] at hfinal
  obtain ⟨c, hc, rfl, hanswered, _⟩ :=
    Engine.exists_cell_of_due hV (fun _ h => Plan.mem_visits_iff.mp h) (hbelow tx hfinal) htx
  obtain ⟨d, hd, rfl, hanswered', hcomputed⟩ :=
    Engine.exists_cell_of_due hV (fun _ h => h) (hbelow tu hle) htu
  rw [Engine.consulted_recordOf] at hu
  exact hdropped
    (feeds_of_consulted hw hc hd hanswered hanswered' (le_trans hcomputed hle) hu)

/-- In every reachable world each code cell has a due time, and no cell is listed as stale twice. A cell
is stale if and only if it is due later than its last run, or has been told by cells before it, which look
at each other in turn, of one that presumes an input to be gone. That one is due later than its last run
itself. A cell that can run is never told: it is stale if and only if it is due later than its last
run. -/
theorem stale_iff_due_after_run (runner : Runner κ ν) (settings : Settings)
    (moves : List (Move κ)) :
    let w := (start settings).play runner moves
    let plan := Plan.draft w.notebook
    let records := (w.engine.enrollAll w.notebook).records
    let survey := w.engine.survey w.notebook
    survey.stale.Nodup ∧
    ∀ id ∈ w.notebook.codeIds, ∃ due, survey.due? id = some due ∧
      (survey.isStale id = true ↔ id ∈ survey.stale) ∧
      (id ∈ survey.stale ↔ (Survey.recordOf records id).computed < due ∨
        ∃ x, Survey.Presumes plan records x ∧ TransGen (Survey.Relays plan records) x id) ∧
      (Survey.Presumes plan records id → (Survey.recordOf records id).computed < due) ∧
      (plan.CanRun id → (id ∈ survey.stale ↔ (Survey.recordOf records id).computed < due)) := by
  intro w plan records survey
  have hw : Reachable runner settings w := reachable_iff_play.mpr ⟨moves, rfl⟩
  have hV := hw.consistent.valid
  have hP : plan.Sound := Plan.sound_draft hV
  refine ⟨Survey.nodup_stale_ofPlan plan records, fun id hid => ?_⟩
  have horder : id ∈ plan.order := (Plan.mem_order_draft_iff hV).mpr hid
  obtain ⟨due, hdue⟩ : ∃ due, survey.due? id = some due :=
    Option.isSome_iff_exists.mp (Survey.isSome_due?_ofPlan_iff.mpr horder)
  have htime : survey.inputTime id = due := by rw [Survey.inputTime, hdue, Option.getD_some]
  have hrecords : ∀ id ∈ plan.order, records.contains id = true := fun id h =>
    Engine.contains_of_mem_order hV h
  have hne : (Survey.recordOf records id).computed ≠ .latest := by
    rw [Engine.computed_recordOf]
    exact computed_ne_latest hw.consistent id
  have hpresumes : Survey.Presumes plan records id → (Survey.recordOf records id).computed < due := by
    intro hx
    rw [Engine.computed_recordOf, ← htime]
    exact lt_due_of_presumes hw hx
  refine ⟨due, hdue, List.contains_iff_mem, ?_, hpresumes, fun hrun => ?_⟩
  · refine (Survey.mem_stale_ofPlan_iff_presumes hP hrecords horder hne).trans (htime ▸ ⟨?_, ?_⟩)
    · rintro (hlt | ⟨x, hx, hpath⟩)
      · exact Or.inl hlt
      rcases reflTransGen_iff_eq_or_transGen.mp hpath with rfl | htold
      · exact Or.inl (htime ▸ hpresumes hx)
      · exact Or.inr ⟨x, hx, htold⟩
    · rintro (hlt | ⟨x, hx, htold⟩)
      · exact Or.inl hlt
      · exact Or.inr ⟨x, hx, htold.to_reflTransGen⟩
  · exact htime ▸ Survey.mem_stale_ofPlan_iff_of_canRun hP hrun

/-- The cell of `u` drops its export and runs in one tick with the reader of `v`, which is faulty and so
does not wait for `v`. Then the first cell closes a second cycle, with `v` on it. -/
def droppedMoves : List (Move Nat) := [
  .call (.addCode (pairSource [] ["y"] 1)), .call (.addCode (pairSource ["y", "c"] ["b"] 2)),
  .call (.addCode (pairSource ["b"] ["c"] 3)), .call (.addCode (pairSource ["c", "u"] ["v"] 4)),
  .call (.addCode (.ok ⟨[Link.same "v"], [], 5, none, true⟩)),
  .call (.addCode (pairSource [] ["u"] 6)), .tick, .tick, .tick, .tick, .tick,
  .call (.updateCode ⟨5⟩ (pairSource [] [] 6)), .tick,
  .call (.updateCode ⟨0⟩ (pairSource ["b", "v"] ["y"] 1))]

/-- The reader is stale for what it has been told of the cell that dropped its input. -/
theorem stale_iff_due_after_run_told :
    let runner : Runner Nat Nat := fun q => pairAnswer q.cell q.code q.inputs
    let w := (start Settings.standard).play runner droppedMoves
    let plan := Plan.draft w.notebook
    let records := (w.engine.enrollAll w.notebook).records
    let survey := w.engine.survey w.notebook
    ⟨4⟩ ∈ w.notebook.codeIds ∧ ⟨4⟩ ∈ survey.stale ∧
      ∃ x, Survey.Presumes plan records x ∧ TransGen (Survey.Relays plan records) x ⟨4⟩ := by
  intro runner w plan records survey
  have hid : ⟨4⟩ ∈ w.notebook.codeIds := by decide +kernel
  have hstale : ⟨4⟩ ∈ survey.stale := by decide +kernel
  have htime : survey.due? ⟨4⟩ = some (Survey.recordOf records ⟨4⟩).computed := by decide +kernel
  obtain ⟨due, hdue, _, hiff, _⟩ :=
    (stale_iff_due_after_run runner Settings.standard droppedMoves).2 ⟨4⟩ hid
  have hnot : ¬ (Survey.recordOf records ⟨4⟩).computed < due :=
    not_lt_of_ge (le_of_eq (Option.some.inj (hdue.symm.trans htime)))
  exact ⟨hid, hstale, (hiff.mp hstale).resolve_left hnot⟩

/-- The second visit of the reader takes the time back to that of its last run, and the reader is still
listed as stale. -/
theorem stale_with_time_of_last_run :
    let runner : Runner Nat Nat := fun q => pairAnswer q.cell q.code q.inputs
    let w := (start Settings.standard).play runner droppedMoves
    let survey := w.engine.survey w.notebook
    let records := (w.engine.enrollAll w.notebook).records
    survey.isStale ⟨4⟩ = true ∧ survey.due? ⟨4⟩ = some (.tick 6) ∧
      (Survey.recordOf records ⟨4⟩).computed = .tick 6 := by
  decide +kernel

end World

end Recalc
