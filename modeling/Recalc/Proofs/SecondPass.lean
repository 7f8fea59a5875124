import Recalc.Proofs.Engine.History
import Recalc.Proofs.Graph.Sorting

/-!
# What the second visits reach

A faulty cell can stand ahead of one of its inputs. Its second visit sees the time that the input
was given by the first visit (`exists_second_visit`), and so do the faulty cells after it that look
at it (`Relays`). What they learn comes too late for a cell that has had its second visit by then: a
faulty cell is due no earlier than its input unless the input is told of a later time in this way
(`due_after_inputs_iff`). Two cycles that share a cell are enough for that
(`shared_cell_overtakes_input`).
-/

namespace Recalc

open Relation
open scoped Time

def Entry.isFaulty {κ : Type} (e : Entry κ) : Bool := e.faulty?.isSome

namespace Plan

variable {κ : Type}

def IsFaulty (plan : Plan κ) (id : CellId) : Prop := ∃ f ∈ plan.faults, f.node.id = id

/-- The first cell reads from the second and is visited before it. -/
def Ahead (plan : Plan κ) (reader input : CellId) : Prop :=
  plan.graph.Feeds input reader ∧ plan.order.idxOf reader < plan.order.idxOf input

instance (plan : Plan κ) (reader input : CellId) : Decidable (plan.Ahead reader input) :=
  inferInstanceAs (Decidable (_ ∧ _))

theorem map_faulty_faults (plan : Plan κ) :
    plan.faults.map Entry.faulty = plan.entries.filter Entry.isFaulty := by
  rw [faults]
  induction plan.entries with
  | nil => rfl
  | cons e rest ih =>
    cases e with
    | runnable r => exact ih
    | faulty f => exact congrArg (Entry.faulty f :: ·) ih

theorem IsFaulty.mem_order {plan : Plan κ} {id : CellId} (h : plan.IsFaulty id) :
    id ∈ plan.order := by
  obtain ⟨f, hf, hid⟩ := h
  exact mem_order_iff.mpr ⟨.faulty f, mem_faults_iff.mp hf, hid⟩

theorem Sound.isFaulty_iff {plan : Plan κ} (hP : plan.Sound) {e : Entry κ}
    (he : e ∈ plan.entries) : plan.IsFaulty e.id ↔ e.isFaulty := by
  constructor
  · rintro ⟨f, hf, hid⟩
    rw [← hP.eq_of_id_eq (mem_faults_iff.mp hf) he hid]
    rfl
  · intro hfaulty
    cases e with
    | runnable r => cases hfaulty
    | faulty f => exact ⟨f, mem_faults_iff.mpr he, rfl⟩

theorem Sound.not_isFaulty_of_canRun {plan : Plan κ} (hP : plan.Sound) {id : CellId}
    (h : plan.CanRun id) : ¬ plan.IsFaulty id := by
  obtain ⟨r, hr, rfl⟩ := h
  intro hfaulty
  cases (hP.isFaulty_iff (mem_runnables_iff.mp hr)).mp hfaulty

/-- A cell ahead of one of its inputs lies on a cycle. -/
theorem Sound.isFaulty_of_ahead {plan : Plan κ} (hP : plan.Sound) {reader input : CellId}
    (h : plan.Ahead reader input) : plan.IsFaulty reader := by
  obtain ⟨hfeeds, hlt⟩ := h
  have hmem := (hP.feeds_mem hfeeds).2
  obtain ⟨before, after, ho⟩ := List.append_of_mem hmem
  have hbefore : input ∉ before := fun hin =>
    absurd ((mem_before_iff hP.nodup_order ho).mp hin) (Nat.lt_asymm hlt)
  have hcycle : TransGen plan.graph.Feeds reader input :=
    (Graph.mem_of_feeds hP.closed (hP.order_eq ▸ ho) hfeeds).resolve_left hbefore
  exact (canRun_or_faulty hmem).resolve_left fun hrun =>
    hP.acyclic_of_canRun hrun (hcycle.tail hfeeds)

end Plan

namespace Survey

variable {κ ν : Type} {records : Records ν} {plan : Plan κ} {s : Survey} {e : Entry κ}

/-! ## The two visits of a cell -/

def firstPass (plan : Plan κ) (records : Records ν) : Survey := run records start plan.entries

theorem ofPlan_eq_run_firstPass (plan : Plan κ) (records : Records ν) :
    ofPlan plan records =
      run records (firstPass plan records) (plan.entries.filter Entry.isFaulty) := by
  rw [ofPlan_eq_run, Plan.visits, Plan.map_faulty_faults, run_append]
  rfl

/-- At the visit of an entry, exactly the cells that come before it have the due time that they end
with. -/
theorem due?_of_split (records : Records ν) (s : Survey) {l before after : List (Entry κ)}
    (hn : (l.map Entry.id).Nodup) (h : l = before ++ e :: after) :
    (run records s l).due? e.id = some (visitDue records (run records s before) e) ∧
      ∀ u, (run records s before).due? u =
        if u ∈ before.map Entry.id then (run records s l).due? u else s.due? u := by
  subst h
  rw [List.map_append, List.map_cons, List.nodup_append, List.nodup_cons] at hn
  obtain ⟨_, ⟨hafter, _⟩, hapart⟩ := hn
  have hne : ∀ x ∈ after, x.id ≠ e.id := fun x hx heq => hafter (heq ▸ List.mem_map_of_mem hx)
  refine ⟨by rw [run_append, run_cons, due?_run_of_ne hne, due?_visit_self], fun u => ?_⟩
  split
  · next hu =>
    have hlast : u ≠ e.id := hapart u hu e.id List.mem_cons_self
    have hlate : ∀ x ∈ after, x.id ≠ u := fun x hx heq =>
      hapart u hu x.id (List.mem_cons_of_mem _ (List.mem_map_of_mem hx)) heq.symm
    rw [run_append, run_cons, due?_run_of_ne hlate, due?_visit_of_ne hlast]
  · next hu => exact due?_run_of_ne fun x hx heq => hu (heq ▸ List.mem_map_of_mem hx)

theorem exists_first_visit (hP : plan.Sound) (records : Records ν) (he : e ∈ plan.entries) :
    ∃ s : Survey, (firstPass plan records).due? e.id = some (visitDue records s e) ∧
      ∀ u, s.due? u =
        if plan.order.idxOf u < plan.order.idxOf e.id then (firstPass plan records).due? u
        else none := by
  obtain ⟨before, after, heq⟩ := List.append_of_mem he
  have horder : plan.order = before.map Entry.id ++ e.id :: after.map Entry.id := by
    rw [Plan.order, heq, List.map_append, List.map_cons]
  obtain ⟨hdue, hbefore⟩ := due?_of_split records start hP.nodup_order heq
  refine ⟨_, hdue, fun u => (hbefore u).trans ?_⟩
  simp only [mem_before_iff hP.nodup_order horder]
  rfl

/-- A cell has its due time of the first pass at the end unless it is faulty. -/
theorem due?_ofPlan_of_not_faulty (hP : plan.Sound) {id : CellId} (h : ¬ plan.IsFaulty id) :
    (ofPlan plan records).due? id = (firstPass plan records).due? id := by
  rw [ofPlan_eq_run_firstPass]
  refine due?_run_of_ne fun x hx heq => h ?_
  obtain ⟨hx, hfaulty⟩ := List.mem_filter.mp hx
  exact heq ▸ (hP.isFaulty_iff hx).mpr hfaulty

theorem inputTime_of_not_faulty (hP : plan.Sound) {id : CellId} (h : ¬ plan.IsFaulty id) :
    (ofPlan plan records).inputTime id = (firstPass plan records).inputTime id := by
  rw [inputTime, inputTime, due?_ofPlan_of_not_faulty hP h]

theorem isFaulty_of_first_lt (hP : plan.Sound) {id : CellId}
    (h : (firstPass plan records).inputTime id < (ofPlan plan records).inputTime id) :
    plan.IsFaulty id := by
  by_contra hnot
  rw [inputTime_of_not_faulty hP hnot] at h
  exact lt_irrefl _ h

theorem due?_firstPass_eq_none {id : CellId} (h : (ofPlan plan records).due? id = none) :
    (firstPass plan records).due? id = none := by
  rw [← Option.not_isSome_iff_eq_none, ofPlan_eq_run_firstPass, due?_isSome_run_iff] at h
  exact Option.not_isSome_iff_eq_none.mp fun hfirst => h (Or.inl hfirst)

theorem exists_due?_firstPass (records : Records ν) {id : CellId} (hid : id ∈ plan.order) :
    ∃ t, (firstPass plan records).due? id = some t :=
  Option.isSome_iff_exists.mp (due?_isSome_run_iff.mpr (Or.inr (Plan.mem_order_iff.mp hid)))

theorem exists_second_visit (hP : plan.Sound) (records : Records ν) (he : e ∈ plan.entries)
    (hfaulty : plan.IsFaulty e.id) :
    ∃ s : Survey, (ofPlan plan records).due? e.id = some (visitDue records s e) ∧
      ∀ u, s.due? u =
        if plan.order.idxOf u < plan.order.idxOf e.id then (ofPlan plan records).due? u
        else (firstPass plan records).due? u := by
  obtain ⟨before, after, heq⟩ := List.append_of_mem he
  have horder : plan.order = before.map Entry.id ++ e.id :: after.map Entry.id := by
    rw [Plan.order, heq, List.map_append, List.map_cons]
  have hn : ((plan.entries.filter Entry.isFaulty).map Entry.id).Nodup :=
    hP.nodup_order.sublist (List.filter_sublist.map Entry.id)
  have hsplit : plan.entries.filter Entry.isFaulty =
      before.filter Entry.isFaulty ++ e :: after.filter Entry.isFaulty := by
    rw [heq, List.filter_append, List.filter_cons_of_pos ((hP.isFaulty_iff he).mp hfaulty)]
  obtain ⟨hdue, hbefore⟩ := due?_of_split records (firstPass plan records) hn hsplit
  rw [← ofPlan_eq_run_firstPass] at hdue
  refine ⟨_, hdue, fun u => (hbefore u).trans ?_⟩
  rw [← ofPlan_eq_run_firstPass]
  simp only [← mem_before_iff hP.nodup_order horder]
  by_cases hu : plan.IsFaulty u
  · have hiff : u ∈ (before.filter Entry.isFaulty).map Entry.id ↔
        u ∈ before.map Entry.id := by
      refine ⟨fun h => (List.filter_sublist.map Entry.id).subset h, fun h => ?_⟩
      obtain ⟨x, hx, rfl⟩ := List.mem_map.mp h
      have hin : x ∈ plan.entries := heq ▸ List.mem_append_left _ hx
      exact List.mem_map_of_mem (List.mem_filter.mpr ⟨hx, (hP.isFaulty_iff hin).mp hu⟩)
    simp only [hiff]
  · rw [due?_ofPlan_of_not_faulty hP hu, ite_self, ite_self]

/-! ## What a visit learns -/

/-- At its visit the second cell takes the time of the first into account, as that of an input or of
an input of its last run. -/
def LooksAt (plan : Plan κ) (records : Records ν) (u v : CellId) : Prop :=
  plan.graph.Feeds u v ∨ u ∈ (recordOf records v).consulted ∧ records.contains u = true

variable {u v x y : CellId}

theorem inputTime_le_visitDue (hP : plan.Sound) (he : e ∈ plan.entries) (s : Survey)
    (h : LooksAt plan records u e.id) : s.inputTime u ≤ visitDue records s e := by
  rcases lt_or_ge (recordOf records e.id).answered e.requested with hreq | hreq
  · exact visitDue_of_lt hreq ▸ Time.le_latest _
  obtain ⟨_, hinputs, hused⟩ := (visitDue_le_iff (s := s) hreq).mp le_rfl
  rcases h with hfeeds | ⟨hconsulted, hcontains⟩
  · exact hinputs u ((hP.mem_inputIds_iff he).mpr hfeeds)
  · have hle := hused u hconsulted
    rw [usedTime, if_pos hcontains] at hle
    rw [inputTime]
    cases hdue : s.due? u with
    | none => exact Time.earliest_le _
    | some t => rwa [hdue] at hle

/-- What an input of the last run tells at a later visit only, it tells by its due time. -/
theorem lt_inputTime_of_usedTime {s' : Survey} {node : Node} {t : Time}
    (hknown : s'.due? u = none → s.due? u = none) (hle : usedTime records node s u ≤ t)
    (hlt : t < usedTime records node s' u) :
    records.contains u = true ∧ t < s'.inputTime u ∧ (s.due? u = none → node.reads u = true) := by
  have hne : t ≠ .latest := Time.lt_latest_iff.mp (lt_of_lt_of_le hlt (Time.le_latest _))
  rw [usedTime] at hle hlt
  split at hlt
  · next hcontains =>
    rw [if_pos hcontains] at hle
    have hreads : s.due? u = none → node.reads u = true := by
      intro hnone
      rw [hnone] at hle
      dsimp only at hle
      split at hle
      · next hreads => exact hreads
      · exact absurd (Time.latest_le_iff.mp hle) hne
    refine ⟨hcontains, ?_, hreads⟩
    rw [inputTime]
    cases hdue : s'.due? u with
    | some t' => rwa [hdue] at hlt
    | none =>
      rw [hdue] at hlt
      dsimp only at hlt
      rwa [if_pos (hreads (hknown hdue))] at hlt
  · next hcontains =>
    rw [if_neg hcontains] at hle
    exact absurd (Time.latest_le_iff.mp hle) hne

/-- What an entry learns at a later visit only, it learns at a cell that it looks at, and that it reads
from if the cell was not visited before the earlier visit. -/
theorem exists_seen_of_lt (hP : plan.Sound) (he : e ∈ plan.entries) {s' : Survey} {t : Time}
    (hknown : ∀ u, s'.due? u = none → s.due? u = none) (hle : visitDue records s e ≤ t)
    (hlt : t < visitDue records s' e) :
    ∃ u, LooksAt plan records u e.id ∧ t < s'.inputTime u ∧
      (s.due? u = none → plan.graph.Feeds u e.id) := by
  rcases lt_or_ge (recordOf records e.id).answered e.requested with hreq | hreq
  · rw [visitDue_of_lt hreq] at hle
    exact absurd hlt (not_lt_of_ge (Time.latest_le_iff.mp hle ▸ Time.le_latest _))
  obtain ⟨hcomputed, _, hused⟩ := (visitDue_le_iff hreq).mp hle
  rcases (lt_visitDue_iff hreq).mp hlt with hlt | ⟨u, hu, hlt⟩ | ⟨u, hu, hlt⟩
  · exact absurd hcomputed (not_le_of_gt hlt)
  · have hfeeds := (hP.mem_inputIds_iff he).mp hu
    exact ⟨u, Or.inl hfeeds, hlt, fun _ => hfeeds⟩
  · obtain ⟨hcontains, hlt, hreads⟩ := lt_inputTime_of_usedTime (hknown u) (hused u hu) hlt
    refine ⟨u, Or.inr ⟨hu, hcontains⟩, hlt, fun hnone => ?_⟩
    exact (hP.mem_inputIds_iff he).mp (Node.mem_inputIds_iff.mpr (hreads hnone))

theorem first_le_first (hP : plan.Sound) (hv : v ∈ plan.order)
    (hbefore : plan.order.idxOf u < plan.order.idxOf v) (h : LooksAt plan records u v) :
    (firstPass plan records).inputTime u ≤ (firstPass plan records).inputTime v := by
  obtain ⟨e, he, rfl⟩ := Plan.mem_order_iff.mp hv
  obtain ⟨s, hdue, hs⟩ := exists_first_visit hP records he
  have hle := inputTime_le_visitDue hP he s h
  rw [inputTime, hs, if_pos hbefore] at hle
  rwa [inputTime, inputTime, hdue]

/-- A faulty cell is due no earlier than what its second visit sees: the last due time of a cell
before it, and the first one of a cell after it. -/
theorem seen_le_final (hP : plan.Sound) (hv : plan.IsFaulty v) (h : LooksAt plan records u v) :
    (if plan.order.idxOf u < plan.order.idxOf v then (ofPlan plan records).inputTime u
      else (firstPass plan records).inputTime u) ≤ (ofPlan plan records).inputTime v := by
  obtain ⟨e, he, rfl⟩ := Plan.mem_order_iff.mp hv.mem_order
  obtain ⟨s, hdue, hs⟩ := exists_second_visit hP records he hv
  have hle := inputTime_le_visitDue hP he s h
  rw [inputTime, hs, apply_ite fun t : Option Time => t.getD .earliest] at hle
  have hdue' : (ofPlan plan records).inputTime e.id = visitDue records s e := by
    rw [inputTime, hdue, Option.getD_some]
  rwa [hdue']

/-- At its second visit a faulty cell passes on what it sees of an earlier cell. -/
def Relays (plan : Plan κ) (records : Records ν) (u v : CellId) : Prop :=
  plan.IsFaulty v ∧ plan.order.idxOf u < plan.order.idxOf v ∧ LooksAt plan records u v

theorem final_le_of_relays (hP : plan.Sound) (h : Relays plan records u v) :
    (ofPlan plan records).inputTime u ≤ (ofPlan plan records).inputTime v := by
  have hle := seen_le_final hP h.1 h.2.2
  rwa [if_pos h.2.1] at hle

theorem final_le_of_relays_star (hP : plan.Sound)
    (h : ReflTransGen (Relays plan records) u v) :
    (ofPlan plan records).inputTime u ≤ (ofPlan plan records).inputTime v := by
  induction h with
  | refl => exact le_rfl
  | tail _ hlast ih => exact le_trans ih (final_le_of_relays hP hlast)

theorem first_le_final_of_ahead (hP : plan.Sound) (h : plan.Ahead x y) :
    (firstPass plan records).inputTime y ≤ (ofPlan plan records).inputTime x := by
  have hlooks : LooksAt plan records y x := Or.inl h.1
  have hle := seen_le_final hP (hP.isFaulty_of_ahead h) hlooks
  rwa [if_neg (Nat.lt_asymm h.2)] at hle

/-- A cell that learns of a later time at its second visit sees it at a cell that stands before it,
or is ahead of the input at which it sees it. -/
theorem exists_source_of_lt (hP : plan.Sound) (hv : plan.IsFaulty v) {t : Time}
    (hle : (firstPass plan records).inputTime v ≤ t)
    (hlt : t < (ofPlan plan records).inputTime v) :
    (∃ u, Relays plan records u v ∧ t < (ofPlan plan records).inputTime u) ∨
      ∃ y, plan.Ahead v y ∧ t < (firstPass plan records).inputTime y := by
  obtain ⟨e, he, rfl⟩ := Plan.mem_order_iff.mp hv.mem_order
  obtain ⟨s, hdue, hs⟩ := exists_first_visit hP records he
  obtain ⟨s', hdue', hs'⟩ := exists_second_visit hP records he hv
  have hfirst : visitDue records s e ≤ t := by rwa [inputTime, hdue] at hle
  have hsecond : t < visitDue records s' e := by rwa [inputTime, hdue'] at hlt
  have hknown : ∀ u, s'.due? u = none → s.due? u = none := by
    intro u
    rw [hs, hs']
    split
    · exact due?_firstPass_eq_none
    · exact fun _ => rfl
  obtain ⟨u, hlooks, ht, hfeeds⟩ := exists_seen_of_lt hP he hknown hfirst hsecond
  rw [inputTime, hs'] at ht
  split at ht
  · next hbefore => exact Or.inl ⟨u, ⟨hv, hbefore, hlooks⟩, ht⟩
  · next hbefore =>
    have hfeed : plan.graph.Feeds u e.id := hfeeds (by rw [hs, if_neg hbefore])
    refine Or.inr ⟨u, ⟨hfeed, ?_⟩, ht⟩
    refine lt_of_le_of_ne (Nat.le_of_not_lt hbefore) fun hidx => ?_
    obtain rfl := (List.idxOf_inj (hP.feeds_mem hfeed).2).mp hidx
    exact absurd hle (not_le_of_gt ht)

theorem exists_ahead_of_lt (hP : plan.Sound) (hv : plan.IsFaulty v) {t : Time}
    (hle : (firstPass plan records).inputTime v ≤ t)
    (hlt : t < (ofPlan plan records).inputTime v) :
    ∃ x y, plan.Ahead x y ∧ ReflTransGen (Relays plan records) x v ∧
      t < (firstPass plan records).inputTime y := by
  induction hn : plan.order.idxOf v using Nat.strongRecOn generalizing v with
  | ind n ih =>
    rcases exists_source_of_lt hP hv hle hlt with ⟨u, hrelays, hlt⟩ | ⟨y, hahead, hlt⟩
    · have hfirst := le_trans (first_le_first hP hv.mem_order hrelays.2.1 hrelays.2.2) hle
      have hu := isFaulty_of_first_lt hP (lt_of_le_of_lt hfirst hlt)
      obtain ⟨x, y, hahead, hpath, hy⟩ := ih _ (hn ▸ hrelays.2.1) hu hfirst hlt rfl
      exact ⟨x, y, hahead, hpath.tail hrelays, hy⟩
    · exact ⟨v, y, hahead, .refl, hlt⟩

theorem ahead_of_final_lt (hP : plan.Sound) (hv : plan.IsFaulty v)
    (hu : plan.graph.Feeds u v)
    (hlt : (ofPlan plan records).inputTime v < (ofPlan plan records).inputTime u) :
    plan.Ahead v u := by
  refine ⟨hu, ?_⟩
  by_contra hnot
  rcases Nat.lt_or_eq_of_le (Nat.le_of_not_lt hnot) with hbefore | hidx
  · exact absurd (final_le_of_relays hP ⟨hv, hbefore, Or.inl hu⟩) (not_le_of_gt hlt)
  · obtain rfl := (List.idxOf_inj (hP.feeds_mem hu).1).mp hidx
    exact lt_irrefl _ hlt

theorem final_lt_iff (hP : plan.Sound) (hv : plan.IsFaulty v) (hu : plan.graph.Feeds u v) :
    (ofPlan plan records).inputTime v < (ofPlan plan records).inputTime u ↔
      ∃ x y, plan.Ahead x y ∧ ReflTransGen (Relays plan records) x u ∧
        (ofPlan plan records).inputTime v < (firstPass plan records).inputTime y := by
  constructor
  · intro hlt
    have hahead := ahead_of_final_lt hP hv hu hlt
    have hfirst : (firstPass plan records).inputTime u ≤ (ofPlan plan records).inputTime v :=
      first_le_final_of_ahead hP hahead
    exact exists_ahead_of_lt hP (isFaulty_of_first_lt hP (lt_of_le_of_lt hfirst hlt)) hfirst hlt
  · rintro ⟨x, y, hahead, hpath, hlt⟩
    exact lt_of_lt_of_le hlt
      (le_trans (first_le_final_of_ahead hP hahead) (final_le_of_relays_star hP hpath))

/-- Every code cell ends with a due time. A faulty cell is due no earlier than an input, unless a cell
ahead of its own input is told of a later time at its second visit and relays it to that input. This
does not happen if the input stands first, or if no other cell ahead of an input relays to it. -/
theorem due_after_inputs_iff (calls : List (Call κ)) (records : Records ν) :
    let nb := Notebook.empty.replay calls
    let plan := Plan.draft nb
    let first := firstPass plan records
    let final := ofPlan plan records
    (∀ id ∈ nb.codeIds, ∃ t, final.due? id = some t) ∧
    ∀ f ∈ plan.faults, ∀ u, plan.graph.Feeds u f.node.id →
      (final.inputTime u ≤ final.inputTime f.node.id ↔
        ∀ x y, plan.Ahead x y → ReflTransGen (Relays plan records) x u →
          first.inputTime y ≤ final.inputTime f.node.id) ∧
      (¬ plan.Ahead f.node.id u ∨
          (∀ x y, plan.Ahead x y → ReflTransGen (Relays plan records) x u → x = f.node.id) →
        final.inputTime u ≤ final.inputTime f.node.id) := by
  intro nb plan first final
  have hV : nb.Valid := Notebook.valid_empty.replay calls
  have hP : plan.Sound := Plan.sound_draft hV
  refine ⟨fun id hid => ?_, fun f hf u hu => ?_⟩
  · obtain ⟨e, he, hid⟩ := Plan.mem_order_iff.mp ((Plan.mem_order_draft_iff hV).mpr hid)
    have hvisited : ∃ e ∈ plan.visits, e.id = id := ⟨e, Plan.mem_visits_iff.mpr he, hid⟩
    exact Option.isSome_iff_exists.mp (due?_isSome_run_iff.mpr (Or.inr hvisited))
  · have hfaulty : plan.IsFaulty f.node.id := ⟨f, hf, rfl⟩
    have hiff : final.inputTime f.node.id < final.inputTime u ↔ _ := final_lt_iff hP hfaulty hu
    constructor
    · rw [← not_lt, hiff]
      push Not
      rfl
    intro hexcept
    by_contra hle
    have hlt := not_le.mp hle
    obtain ⟨x, y, hahead, hpath, hy⟩ := hiff.mp hlt
    rcases hexcept with hfirst | hone
    · exact hfirst (ahead_of_final_lt hP hfaulty hu hlt)
    · obtain rfl := hone x y hahead hpath
      exact absurd (first_le_final_of_ahead hP hahead) (not_le_of_gt hy)

/-- A cycle of two cells, at rest until the first is asked to run. The second is visited before it and
sees the request at its second visit, as no other cell is ahead of its input. -/
theorem second_visit_sees_request :
    let runner : Runner Nat Nat := fun q => World.pairAnswer q.cell q.code q.inputs
    let cells : List (Call Nat) := [.addCode (World.pairSource ["b"] ["a"] 1),
      .addCode (World.pairSource ["a"] ["b"] 2)]
    let w := (World.start Settings.standard).play runner (cells.map .call ++ [.tick])
    let calls := cells ++ [.requestRun ⟨0⟩]
    let plan := Plan.draft (Notebook.empty.replay calls)
    let final := ofPlan plan w.engine.records
    (∃ f ∈ plan.faults, f.node.id = ⟨1⟩) ∧ plan.Ahead ⟨1⟩ ⟨0⟩ ∧
      (∀ x y, plan.Ahead x y → x = ⟨1⟩) ∧
      final.inputTime ⟨0⟩ = .latest ∧ final.inputTime ⟨0⟩ ≤ final.inputTime ⟨1⟩ := by
  intro runner cells w calls plan final
  have hfaulty : ∃ f ∈ plan.faults, f.node.id = ⟨1⟩ := by decide +kernel
  have hahead : plan.Ahead ⟨1⟩ ⟨0⟩ := by decide +kernel
  have hone : ∀ x y, plan.Ahead x y → x = ⟨1⟩ := by
    have harcs : ∀ a ∈ plan.graph.arcs,
        plan.order.idxOf a.target < plan.order.idxOf a.source → a.target = ⟨1⟩ := by
      decide +kernel
    rintro _ _ ⟨⟨a, ha, rfl, rfl⟩, hlt⟩
    exact harcs a ha hlt
  have hlatest : final.inputTime ⟨0⟩ = .latest := by decide +kernel
  -- the values of the notebook and the records do not matter any more
  clear_value w calls
  obtain ⟨f, hf, hid⟩ := hfaulty
  have hfeeds : plan.graph.Feeds ⟨0⟩ f.node.id := hid.symm ▸ hahead.1
  have hle : final.inputTime ⟨0⟩ ≤ final.inputTime f.node.id :=
    ((due_after_inputs_iff calls w.engine.records).2 f hf ⟨0⟩ hfeeds).2
      (Or.inr fun x y h _ => (hone x y h).trans hid.symm)
  exact ⟨⟨f, hf, hid⟩, hahead, hone, hlatest, hid ▸ hle⟩

/-- Two cycles that share their second cell, at rest until the first cell is asked to run. The third
cell is visited again before the second, which is told of the request by the first. -/
theorem shared_cell_overtakes_input :
    let runner : Runner Nat Nat := fun q => World.pairAnswer q.cell q.code q.inputs
    let w := (World.start Settings.standard).play runner [
      .call (.addCode (World.pairSource ["b"] ["a"] 1)),
      .call (.addCode (World.pairSource ["a", "c"] ["b"] 2)),
      .call (.addCode (World.pairSource ["b"] ["c"] 3)), .tick, .tick, .call (.requestRun ⟨0⟩)]
    let plan := Plan.draft w.notebook
    let final := ofPlan plan w.engine.records
    (∀ id ∈ w.notebook.codeIds, w.engine.records.contains id = true) ∧
      (∃ f ∈ plan.faults, f.node.id = ⟨2⟩) ∧ plan.graph.Feeds ⟨1⟩ ⟨2⟩ ∧
      final.due? ⟨1⟩ = some .latest ∧ final.due? ⟨2⟩ = some (.tick 1) := by
  decide +kernel

end Survey

end Recalc
