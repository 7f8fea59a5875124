import Recalc.Proofs.Plan.Entries
import Recalc.Survey

/-!
# What a survey finds

A survey visits the entries of a plan in order and the faulty ones once more, so every entry has a
visit that comes after a visit of each of its inputs (`exists_visit`). At such a visit an entry that
is not stale answers for its inputs: none of them has run later, or waits for a run
(`answered_of_not_stale`). An entry is not stale if it and all that feeds it are quiet
(`Calm.not_stale`).

Of two surveys of one plan, the second finds every entry stale that the first found, unless the entry
has run between the two (`Advanced.stale_of_stale`). A survey is about the cells of its plan alone: what
records there are of others makes no difference (`Agree.ofPlan_eq`).
-/

namespace Recalc

open Relation
open scoped Time

/-- The entries in the order in which they are visited. -/
def Plan.visits {κ : Type} (plan : Plan κ) : List (Entry κ) :=
  plan.entries ++ plan.faults.map Entry.faulty

theorem Plan.mem_visits_iff {κ : Type} {plan : Plan κ} {e : Entry κ} :
    e ∈ plan.visits ↔ e ∈ plan.entries := by
  rw [visits, List.mem_append, or_iff_left_iff_imp, List.mem_map]
  rintro ⟨f, hf, rfl⟩
  exact mem_faults_iff.mp hf

/-- Every entry has a visit that comes after a visit of each of its inputs. -/
theorem Plan.Sound.exists_visit {κ : Type} {plan : Plan κ} (hP : plan.Sound) {e : Entry κ}
    (he : e ∈ plan.entries) :
    ∃ before after, plan.visits = before ++ e :: after ∧
      ∀ u, plan.graph.Feeds u e.id → ∃ x ∈ before, x.id = u := by
  cases e with
  | runnable r =>
    obtain ⟨before, after, heq⟩ := List.append_of_mem he
    refine ⟨before, after ++ plan.faults.map Entry.faulty, by simp [visits, heq], ?_⟩
    exact fun u hu => hP.mem_before heq (.single hu)
  | faulty f =>
    have hf : Entry.faulty f ∈ plan.faults.map (Entry.faulty (κ := κ)) :=
      List.mem_map_of_mem (mem_faults_iff.mpr he)
    obtain ⟨before, after, heq⟩ := List.append_of_mem hf
    refine ⟨plan.entries ++ before, after, by simp [visits, heq], fun u hu => ?_⟩
    obtain ⟨x, hx, hid⟩ := mem_order_iff.mp (hP.feeds_mem hu).1
    exact ⟨x, List.mem_append_left _ hx, hid⟩

namespace Survey

variable {κ ν : Type} {records : Records ν} {s : Survey} {e : Entry κ} {id : CellId}

def visitDue (records : Records ν) (s : Survey) (e : Entry κ) : Time :=
  dueTime records s e.node e.requested (recordOf records e.id)

theorem due?_visit_self : (visit records s e).due? e.id = some (visitDue records s e) := by
  simp [visit, due?, visitDue]

theorem due?_visit_of_ne (h : id ≠ e.id) : (visit records s e).due? id = s.due? id := by
  have hne : (id == e.id) = false := by simpa using h
  simp [visit, due?, List.lookup_cons, hne]

theorem mem_stale_visit_iff :
    id ∈ (visit records s e).stale ↔
      id ∈ s.stale ∨ id = e.id ∧ (recordOf records e.id).computed < visitDue records s e := by
  rw [visit, visitDue]
  dsimp only
  split
  · next h => simp [h.1]
  · next h =>
    constructor
    · exact Or.inl
    · rintro (hs | ⟨rfl, hlt⟩)
      · exact hs
      · by_contra hnew
        exact h ⟨hlt, hnew⟩

theorem nodup_stale_visit (h : s.stale.Nodup) : (visit records s e).stale.Nodup := by
  rw [visit]
  dsimp only
  split
  · next hnew =>
    refine List.nodup_append.mpr ⟨h, List.nodup_singleton _, ?_⟩
    rintro a ha b hb rfl
    exact hnew.2 (List.mem_singleton.mp hb ▸ ha)
  · exact h

def run (records : Records ν) (s : Survey) (l : List (Entry κ)) : Survey :=
  l.foldl (visit records) s

theorem ofPlan_eq_run (plan : Plan κ) (records : Records ν) :
    ofPlan plan records = run records start plan.visits := rfl

theorem run_cons (l : List (Entry κ)) :
    run records s (e :: l) = run records (visit records s e) l := rfl

theorem run_append (l m : List (Entry κ)) :
    run records s (l ++ m) = run records (run records s l) m :=
  List.foldl_append

theorem mem_stale_run_iff {l : List (Entry κ)} :
    id ∈ (run records s l).stale ↔
      id ∈ s.stale ∨ ∃ before e after, l = before ++ e :: after ∧ e.id = id ∧
        (recordOf records id).computed < visitDue records (run records s before) e := by
  induction l generalizing s with
  | nil => simp [run]
  | cons x rest ih =>
    rw [run_cons, ih, mem_stale_visit_iff, or_assoc]
    refine or_congr_right ?_
    constructor
    · rintro (⟨rfl, hlt⟩ | ⟨before, e, after, rfl, hid, hlt⟩)
      · exact ⟨[], x, rest, rfl, rfl, hlt⟩
      · exact ⟨x :: before, e, after, rfl, hid, hlt⟩
    · rintro ⟨before, e, after, heq, rfl, hlt⟩
      cases before with
      | nil =>
        cases heq
        exact Or.inl ⟨rfl, hlt⟩
      | cons y before =>
        cases heq
        exact Or.inr ⟨before, e, after, rfl, rfl, hlt⟩

theorem nodup_stale_ofPlan (plan : Plan κ) (records : Records ν) :
    (ofPlan plan records).stale.Nodup := by
  have hrun : ∀ (l : List (Entry κ)) (s : Survey), s.stale.Nodup →
      (run records s l).stale.Nodup := by
    intro l
    induction l with
    | nil => exact fun _ h => h
    | cons e rest ih => exact fun s h => ih _ (nodup_stale_visit h)
  exact hrun _ _ List.nodup_nil

theorem due?_isSome_run_iff {l : List (Entry κ)} :
    ((run records s l).due? id).isSome ↔ (s.due? id).isSome ∨ ∃ e ∈ l, e.id = id := by
  induction l generalizing s with
  | nil => simp [run]
  | cons x rest ih =>
    rw [run_cons, ih]
    by_cases hid : id = x.id
    · subst hid
      simp [due?_visit_self]
    · have hne : x.id ≠ id := fun h => hid h.symm
      simp [due?_visit_of_ne hid, hne]

theorem mem_order_of_mem_stale {plan : Plan κ} (h : id ∈ (ofPlan plan records).stale) :
    id ∈ plan.order := by
  rw [ofPlan_eq_run, mem_stale_run_iff] at h
  rcases h with ⟨⟨⟩⟩ | ⟨before, e, after, hvisits, hid, _⟩
  exact Plan.mem_order_iff.mpr ⟨e, Plan.mem_visits_iff.mp (hvisits ▸ by simp), hid⟩

theorem isSome_due?_ofPlan_iff {plan : Plan κ} :
    ((ofPlan plan records).due? id).isSome ↔ id ∈ plan.order := by
  rw [ofPlan_eq_run, due?_isSome_run_iff, Plan.mem_order_iff]
  simp [start, due?, Plan.mem_visits_iff]

/-- What holds of each visit, given that it holds of the visits before, holds of all due times. -/
theorem forall_due?_run {P : CellId → Time → Prop} {l : List (Entry κ)}
    (hvisit : ∀ s, (∀ id t, s.due? id = some t → P id t) → ∀ e ∈ l, P e.id (visitDue records s e))
    (hs : ∀ id t, s.due? id = some t → P id t) :
    ∀ id t, (run records s l).due? id = some t → P id t := by
  induction l generalizing s with
  | nil => exact hs
  | cons e rest ih =>
    refine ih (fun s hs x hx => hvisit s hs x (List.mem_cons_of_mem e hx)) fun id t hdue => ?_
    by_cases hid : id = e.id
    · subst hid
      rw [due?_visit_self, Option.some.injEq] at hdue
      exact hdue ▸ hvisit s hs e List.mem_cons_self
    · rw [due?_visit_of_ne hid] at hdue
      exact hs id t hdue

theorem lt_visitDue_iff {t : Time} (hV : e.requested ≤ (recordOf records e.id).answered) :
    t < visitDue records s e ↔ t < (recordOf records e.id).computed ∨
      (∃ u ∈ e.node.inputIds, t < s.inputTime u) ∨
        ∃ u ∈ (recordOf records e.id).consulted, t < usedTime records e.node s u := by
  rw [visitDue, dueTime, if_neg (not_lt_of_ge hV), Time.lt_newest_iff]
  simp only [List.mem_cons, List.mem_append, List.mem_map, or_and_right, exists_or,
    exists_eq_left, exists_exists_and_eq_and]

theorem visitDue_le_iff {t : Time} (hV : e.requested ≤ (recordOf records e.id).answered) :
    visitDue records s e ≤ t ↔ (recordOf records e.id).computed ≤ t ∧
      (∀ u ∈ e.node.inputIds, s.inputTime u ≤ t) ∧
        ∀ u ∈ (recordOf records e.id).consulted, usedTime records e.node s u ≤ t := by
  rw [← not_lt, lt_visitDue_iff hV]
  push Not
  rfl

theorem visitDue_of_lt (h : (recordOf records e.id).answered < e.requested) :
    visitDue records s e = .latest := if_pos h

theorem computed_le_visitDue : (recordOf records e.id).computed ≤ visitDue records s e := by
  by_cases h : (recordOf records e.id).answered < e.requested
  · rw [visitDue_of_lt h]
    exact Time.le_latest _
  · exact ((visitDue_le_iff (not_lt.mp h)).mp le_rfl).1

/-- A due time comes from a visit, is no earlier than the last run, and is `latest` if that run did
not answer the request. -/
theorem of_due?_run {l : List (Entry κ)} {t : Time}
    (hdue : (run records start l).due? id = some t) :
    ∃ e ∈ l, e.id = id ∧ (recordOf records id).computed ≤ t ∧
      (t ≠ .latest → e.requested ≤ (recordOf records id).answered) := by
  refine forall_due?_run (P := fun id t => ∃ e ∈ l, e.id = id ∧
    (recordOf records id).computed ≤ t ∧
      (t ≠ .latest → e.requested ≤ (recordOf records id).answered)) ?_ ?_ id t hdue
  · intro s _ e he
    refine ⟨e, he, rfl, computed_le_visitDue, fun hne => ?_⟩
    exact not_lt.mp fun hlt => hne (visitDue_of_lt hlt)
  · rintro id t ⟨⟩

section Plan

variable {plan : Plan κ}

theorem visit_of_not_stale (hstale : id ∉ (ofPlan plan records).stale)
    {before after : List (Entry κ)} (hvisits : plan.visits = before ++ e :: after)
    (hid : e.id = id) :
    visitDue records (run records start before) e ≤ (recordOf records id).computed := by
  rw [ofPlan_eq_run, mem_stale_run_iff] at hstale
  exact not_lt.mp fun hlt => hstale (Or.inr ⟨before, e, after, hvisits, hid, hlt⟩)

/-- An entry that is not stale has its request answered, and so have its inputs and those of its last
run, none of which has run later. -/
theorem answered_of_not_stale (records : Records ν) (hP : plan.Sound) (he : e ∈ plan.entries)
    (hne : (recordOf records e.id).computed ≠ .latest)
    (hstale : e.id ∉ (ofPlan plan records).stale) :
    e.requested ≤ (recordOf records e.id).answered ∧
      ∀ u, plan.graph.Feeds u e.id ∨ u ∈ (recordOf records e.id).consulted →
        ∃ x ∈ plan.entries, x.id = u ∧ x.requested ≤ (recordOf records u).answered ∧
          (recordOf records u).computed ≤ (recordOf records e.id).computed := by
  obtain ⟨before, after, hvisits, hbefore⟩ := hP.exists_visit he
  have hle := visit_of_not_stale hstale hvisits rfl
  have hreq : e.requested ≤ (recordOf records e.id).answered := by
    by_contra hlt
    rw [visitDue_of_lt (not_le.mp hlt)] at hle
    exact hne (Time.latest_le_iff.mp hle)
  obtain ⟨_, hinputs, hused⟩ := (visitDue_le_iff hreq).mp hle
  refine ⟨hreq, fun u hu => ?_⟩
  suffices hdue : ∃ t, (run records start before).due? u = some t ∧
      t ≤ (recordOf records e.id).computed by
    obtain ⟨t, hdue, ht⟩ := hdue
    obtain ⟨x, hx, hid, hcomputed, hanswered⟩ := of_due?_run hdue
    have hplan : x ∈ plan.entries := Plan.mem_visits_iff.mp (hvisits ▸ List.mem_append_left _ hx)
    refine ⟨x, hplan, hid, hanswered ?_, le_trans hcomputed ht⟩
    rintro rfl
    exact hne (Time.latest_le_iff.mp ht)
  have hfed : plan.graph.Feeds u e.id → ∃ t, (run records start before).due? u = some t := by
    intro hf
    exact Option.isSome_iff_exists.mp (due?_isSome_run_iff.mpr (Or.inr (hbefore u hf)))
  cases hu with
  | inl hu =>
    obtain ⟨t, hdue⟩ := hfed hu
    have hle := hinputs u ((hP.mem_inputIds_iff he).mpr hu)
    rw [inputTime, hdue] at hle
    exact ⟨t, hdue, hle⟩
  | inr hu =>
    have hle := hused u hu
    rw [usedTime] at hle
    split at hle
    · split at hle
      · next t hdue => exact ⟨t, hdue, hle⟩
      · next hnone =>
        split at hle
        · next hreads =>
          obtain ⟨t, hdue⟩ := hfed ((hP.mem_inputIds_iff he).mp (Node.mem_inputIds_iff.mpr hreads))
          rw [hnone] at hdue
          cases hdue
        · exact absurd (Time.latest_le_iff.mp hle) hne
    · exact absurd (Time.latest_le_iff.mp hle) hne

/-- A bound on the due times of a part of the plan that is closed under inputs: it bounds the last
runs, and does not fall along an arc. -/
structure Bounded (plan : Plan κ) (records : Records ν) (part : CellId → Prop)
    (bound : CellId → Time) : Prop where
  answered : ∀ e ∈ plan.entries, part e.id → e.requested ≤ (recordOf records e.id).answered
  computed : ∀ e ∈ plan.entries, part e.id → (recordOf records e.id).computed ≤ bound e.id
  consulted : ∀ e ∈ plan.entries, part e.id → ∀ u ∈ (recordOf records e.id).consulted,
    records.contains u = true ∧ plan.graph.Feeds u e.id
  feeds : ∀ u v, plan.graph.Feeds u v → part v → part u ∧ bound u ≤ bound v

theorem Bounded.visitDue_le {part : CellId → Prop} {bound : CellId → Time} (hP : plan.Sound)
    (h : Bounded plan records part bound)
    (hs : ∀ id t, s.due? id = some t → part id → t ≤ bound id) (he : e ∈ plan.entries)
    (hpart : part e.id) : visitDue records s e ≤ bound e.id := by
  rw [visitDue_le_iff (h.answered e he hpart)]
  refine ⟨h.computed e he hpart, fun u hu => ?_, fun u hu => ?_⟩
  · obtain ⟨hpu, hle⟩ := h.feeds u e.id ((hP.mem_inputIds_iff he).mp hu) hpart
    rw [inputTime]
    cases hdue : s.due? u with
    | none => exact Time.earliest_le _
    | some t => exact le_trans (hs u t hdue hpu) hle
  · obtain ⟨hcontains, hf⟩ := h.consulted e he hpart u hu
    obtain ⟨hpu, hle⟩ := h.feeds u e.id hf hpart
    have hreads := Node.mem_inputIds_iff.mp ((hP.mem_inputIds_iff he).mpr hf)
    rw [usedTime, if_pos hcontains]
    cases hdue : s.due? u with
    | none =>
      dsimp only
      rw [if_pos hreads]
      exact Time.earliest_le _
    | some t => exact le_trans (hs u t hdue hpu) hle

theorem Bounded.not_stale {part : CellId → Prop} {bound : CellId → Time} (hP : plan.Sound)
    (h : Bounded plan records part bound) (hpart : part id)
    (hle : bound id ≤ (recordOf records id).computed) : id ∉ (ofPlan plan records).stale := by
  rw [ofPlan_eq_run, mem_stale_run_iff]
  rintro (⟨⟨⟩⟩ | ⟨before, e, after, hvisits, rfl, hlt⟩)
  have hmem : ∀ x ∈ before ++ e :: after, x ∈ plan.entries := fun x hx =>
    Plan.mem_visits_iff.mp (hvisits ▸ hx)
  refine absurd (h.visitDue_le hP (forall_due?_run ?_ ?_) (hmem e (by simp)) hpart)
    (not_le_of_gt (lt_of_le_of_lt hle hlt))
  · exact fun s hs x hx hpx => h.visitDue_le hP hs (hmem x (List.mem_append_left _ hx)) hpx
  · rintro id t ⟨⟩

/-- A cell has answered its request and consulted exactly its inputs, none of which has run later. -/
structure Quiet (plan : Plan κ) (shown : CellId → Record ν) (v : CellId) : Prop where
  answered : ∀ e ∈ plan.entries, e.id = v → e.requested ≤ (shown v).answered
  consulted : (shown v).consulted = plan.graph.sources v
  computed : ∀ u, plan.graph.Feeds u v → (shown u).computed ≤ (shown v).computed

/-- A cell is quiet together with everything that feeds it. -/
def Calm (plan : Plan κ) (shown : CellId → Record ν) (v : CellId) : Prop :=
  ∀ u, ReflTransGen plan.graph.Feeds u v → Quiet plan shown u

theorem Calm.not_stale (hP : plan.Sound) (hrecords : ∀ id ∈ plan.order, records.contains id = true)
    (h : Calm plan (recordOf records) id) : id ∉ (ofPlan plan records).stale := by
  have hbounded : Bounded plan records (fun u => ReflTransGen plan.graph.Feeds u id)
      fun u => (recordOf records u).computed := by
    refine ⟨fun e he hu => (h e.id hu).answered e he rfl, fun _ _ _ => le_rfl, ?_, ?_⟩
    · intro e he hu u hc
      rw [(h e.id hu).consulted, Graph.mem_sources_iff] at hc
      exact ⟨hrecords u (hP.feeds_mem hc).1, hc⟩
    · exact fun u v hf hv => ⟨.head hf hv, (h v hv).computed u hf⟩
  exact hbounded.not_stale hP .refl le_rfl

end Plan

/-! ## After a change of the notebook -/

section Ordered

variable {plan : Plan κ}

/-- Of two cells that have answered their requests, a reader has run no earlier than its input. -/
def Ordered (plan : Plan κ) (records : Records ν) : Prop :=
  ∀ e ∈ plan.entries, e.requested ≤ (recordOf records e.id).answered →
    ∀ u, plan.graph.Feeds u e.id ∨ u ∈ (recordOf records e.id).consulted →
      ∀ x ∈ plan.entries, x.id = u → x.requested ≤ (recordOf records u).answered →
        (recordOf records u).computed ≤ (recordOf records e.id).computed

/-- A due time that says no more than that the cell has to run, or that it has not. -/
def IsPolar (plan : Plan κ) (records : Records ν) (id : CellId) (t : Time) : Prop :=
  t = .latest ∨ t = (recordOf records id).computed ∧
    ∃ x ∈ plan.entries, x.id = id ∧ x.requested ≤ (recordOf records id).answered

theorem Ordered.isPolar_visitDue (h : Ordered plan records) (hP : plan.Sound)
    (hs : ∀ id t, s.due? id = some t → IsPolar plan records id t) (he : e ∈ plan.entries) :
    IsPolar plan records e.id (visitDue records s e) := by
  rcases lt_or_ge (recordOf records e.id).answered e.requested with hreq | hreq
  · exact Or.inl (visitDue_of_lt hreq)
  obtain ⟨_, hinputs, hused⟩ := (visitDue_le_iff (s := s) hreq).mp le_rfl
  cases le_or_gt (visitDue records s e) (recordOf records e.id).computed with
  | inl hle => exact Or.inr ⟨le_antisymm hle computed_le_visitDue, e, he, rfl, hreq⟩
  | inr hlt =>
    have hlatest : ∀ u t, plan.graph.Feeds u e.id ∨ u ∈ (recordOf records e.id).consulted →
        s.due? u = some t → (recordOf records e.id).computed < t → t = .latest := by
      intro u t hu hdue hlt
      rcases hs u t hdue with ht | ⟨rfl, x, hx, hid, hanswered⟩
      · exact ht
      · exact absurd (h e he hreq u hu x hx hid hanswered) (not_le_of_gt hlt)
    refine Or.inl (Time.latest_le_iff.mp ?_)
    rcases (lt_visitDue_iff hreq).mp hlt with hlt | ⟨u, hu, hlt⟩ | ⟨u, hu, hlt⟩
    · exact absurd hlt (lt_irrefl _)
    · have hle := hinputs u hu
      rw [inputTime] at hlt hle
      cases hdue : s.due? u with
      | none =>
        rw [hdue] at hlt
        exact absurd hlt (not_lt_of_ge (Time.earliest_le _))
      | some t =>
        rw [hdue] at hlt hle
        exact hlatest u t (Or.inl ((hP.mem_inputIds_iff he).mp hu)) hdue hlt ▸ hle
    · have hle := hused u hu
      rw [usedTime] at hlt hle
      split at hlt
      · next hcontains =>
        rw [if_pos hcontains] at hle
        cases hdue : s.due? u with
        | none =>
          rw [hdue] at hlt hle
          dsimp only at hlt hle
          split at hlt
          · exact absurd hlt (not_lt_of_ge (Time.earliest_le _))
          · next hreads => rwa [if_neg hreads] at hle
        | some t =>
          rw [hdue] at hlt hle
          exact hlatest u t (Or.inr hu) hdue hlt ▸ hle
      · next hcontains => rwa [if_neg hcontains] at hle

theorem due?_run_of_ne {l : List (Entry κ)} (h : ∀ x ∈ l, x.id ≠ id) :
    (run records s l).due? id = s.due? id := by
  induction l generalizing s with
  | nil => rfl
  | cons x rest ih =>
    rw [run_cons, ih fun y hy => h y (List.mem_cons_of_mem x hy)]
    exact due?_visit_of_ne (h x List.mem_cons_self).symm

/-- If no two visits are of one cell, a cell that is stale was found so at its visit. -/
theorem lt_visitDue_of_stale (hnodup : (plan.visits.map Entry.id).Nodup)
    {early late : List (Entry κ)} (hvisits : plan.visits = early ++ e :: late)
    (hstale : e.id ∈ (ofPlan plan records).stale) :
    (recordOf records e.id).computed < visitDue records (run records start early) e := by
  rw [ofPlan_eq_run, mem_stale_run_iff] at hstale
  rcases hstale with ⟨⟨⟩⟩ | ⟨early', e', late', hvisits', hid, hlt⟩
  obtain rfl : e' = e := by
    refine List.inj_on_of_nodup_map hnodup ?_ ?_ hid
    · exact hvisits' ▸ by simp
    · exact hvisits ▸ by simp
  have hsame : early ++ e' :: late = early' ++ e' :: late' := hvisits.symm.trans hvisits'
  have hdistinct := List.Nodup.of_map Entry.id hnodup
  rw [hvisits, List.nodup_append] at hdistinct
  have hearly : e' ∉ early := fun h => hdistinct.2.2 e' h e' List.mem_cons_self rfl
  have hlate : e' ∉ late := (List.nodup_cons.mp hdistinct.2.1).1
  obtain ⟨rfl, -, -⟩ := (List.append_cons_inj_of_notMem hearly hlate).mp hsame
  exact hlt

/-- In a plan without faults what reads from a stale cell is stale: every entry has one visit, and a
cell that is stale is due at `latest`. -/
theorem Ordered.stale_of_feeds (h : Ordered plan records) (hP : plan.Sound)
    (hfaults : plan.faults = []) {u v : CellId} (hf : plan.graph.Feeds u v)
    (hne : (recordOf records v).computed ≠ .latest) (hu : u ∈ (ofPlan plan records).stale) :
    v ∈ (ofPlan plan records).stale := by
  have hnodup : (plan.visits.map Entry.id).Nodup := by
    have hvisits : plan.visits = plan.entries := by simp [Plan.visits, hfaults]
    exact hvisits ▸ hP.nodup_order
  obtain ⟨x, hx, rfl⟩ := Plan.mem_order_iff.mp (hP.feeds_mem hf).2
  obtain ⟨before, after, hsplit, hbefore⟩ := hP.exists_visit hx
  obtain ⟨e, he, rfl⟩ := hbefore u hf
  obtain ⟨early, late, rfl⟩ := List.append_of_mem he
  have hvisit : plan.visits = early ++ e :: (late ++ x :: after) := by simpa using hsplit
  have hmem : ∀ z ∈ early ++ e :: (late ++ x :: after), z ∈ plan.entries := fun z hz =>
    Plan.mem_visits_iff.mp (hvisit ▸ hz)
  have hdue := lt_visitDue_of_stale hnodup hvisit hu
  have hpolar : IsPolar plan records e.id (visitDue records (run records start early) e) := by
    refine h.isPolar_visitDue hP (forall_due?_run (fun s hs z hz => ?_) ?_) (hmem e (by simp))
    · exact h.isPolar_visitDue hP hs (hmem z (by simp [hz]))
    · rintro id t ⟨⟩
  have hlatest : visitDue records (run records start early) e = .latest := by
    rcases hpolar with hlatest | ⟨heq, _⟩
    · exact hlatest
    · rw [heq] at hdue
      exact absurd hdue (lt_irrefl _)
  -- the due time of the input is not overwritten before its reader is visited
  have hlate : ∀ z ∈ late, z.id ≠ e.id := by
    intro z hz heq
    rw [hvisit, List.map_append, List.map_cons, List.nodup_append] at hnodup
    refine (List.nodup_cons.mp hnodup.2.1).1 (heq ▸ List.mem_map_of_mem ?_)
    exact List.mem_append_left _ hz
  have hinput : (run records start (early ++ e :: late)).due? e.id = some .latest := by
    rw [run_append, run_cons, due?_run_of_ne hlate, due?_visit_self, hlatest]
  rw [ofPlan_eq_run, mem_stale_run_iff]
  refine Or.inr ⟨early ++ e :: late, x, after, hsplit, rfl, ?_⟩
  refine lt_of_lt_of_le (Time.lt_latest_iff.mpr hne) ?_
  cases lt_or_ge (recordOf records x.id).answered x.requested with
  | inl hreq => exact le_of_eq (visitDue_of_lt hreq).symm
  | inr hreq =>
    obtain ⟨_, hinputs, _⟩ :=
      (visitDue_le_iff (s := run records start (early ++ e :: late)) hreq).mp le_rfl
    have hle := hinputs e.id ((hP.mem_inputIds_iff hx).mpr hf)
    rwa [inputTime, hinput] at hle

end Ordered

/-! ## A later survey of the same plan -/

/-- Every due time below a bound is reached in the later survey as well. -/
def Follows (bound : Time) (s s' : Survey) : Prop :=
  ∀ id, (s.due? id = none ∧ s'.due? id = none) ∨
    ∃ t t', s.due? id = some t ∧ s'.due? id = some t' ∧ ∀ a, a < bound → a < t → a < t'

/-- Between two surveys an entry has not run, or has run no earlier than the bound. -/
structure Advanced (plan : Plan κ) (bound : Time) (records records' : Records ν) : Prop where
  contains : ∀ id, records'.contains id = true → records.contains id = true
  entries : ∀ e ∈ plan.entries, bound ≤ (recordOf records' e.id).computed ∨
    (recordOf records' e.id).answered = (recordOf records e.id).answered ∧
      (recordOf records' e.id).computed = (recordOf records e.id).computed ∧
        (recordOf records' e.id).consulted = (recordOf records e.id).consulted

variable {plan : Plan κ} {records' : Records ν} {bound : Time} {s' : Survey}

theorem Follows.lt_inputTime (h : Follows bound s s') {a : Time} (ha : a < bound)
    (hlt : a < s.inputTime id) : a < s'.inputTime id := by
  rw [inputTime] at hlt ⊢
  rcases h id with ⟨hs, hs'⟩ | ⟨t, t', hs, hs', hle⟩
  · rw [hs] at hlt
    rwa [hs']
  · rw [hs] at hlt
    rw [hs']
    exact hle a ha hlt

theorem Follows.lt_usedTime (h : Follows bound s s')
    (hcontains : ∀ id, records'.contains id = true → records.contains id = true) {node : Node}
    {a : Time} (ha : a < bound) (hlt : a < usedTime records node s id) :
    a < usedTime records' node s' id := by
  have hlatest : a < .latest := lt_of_lt_of_le ha (Time.le_latest _)
  rw [usedTime] at hlt ⊢
  split
  · next hin =>
    rw [if_pos (hcontains id hin)] at hlt
    rcases h id with ⟨hs, hs'⟩ | ⟨t, t', hs, hs', hle⟩
    · rw [hs] at hlt
      rwa [hs']
    · rw [hs] at hlt
      rw [hs']
      exact hle a ha hlt
  · exact hlatest

theorem Advanced.lt_visitDue (h : Advanced plan bound records records') (he : e ∈ plan.entries)
    (hs : Follows bound s s') {a : Time} (ha : a < bound) (hlt : a < visitDue records s e) :
    a < visitDue records' s' e := by
  rcases h.entries e he with hrun | ⟨hanswered, hcomputed, hconsulted⟩
  · exact lt_of_lt_of_le ha (le_trans hrun computed_le_visitDue)
  · cases lt_or_ge (recordOf records e.id).answered e.requested with
    | inl hreq =>
      rw [visitDue_of_lt (hanswered ▸ hreq)]
      exact lt_of_lt_of_le ha (Time.le_latest _)
    | inr hreq =>
      rw [lt_visitDue_iff hreq] at hlt
      rw [lt_visitDue_iff (hanswered ▸ hreq), hcomputed, hconsulted]
      rcases hlt with hlt | ⟨u, hu, hlt⟩ | ⟨u, hu, hlt⟩
      · exact Or.inl hlt
      · exact Or.inr (Or.inl ⟨u, hu, hs.lt_inputTime ha hlt⟩)
      · exact Or.inr (Or.inr ⟨u, hu, hs.lt_usedTime h.contains ha hlt⟩)

theorem Advanced.follows_run (h : Advanced plan bound records records') {l : List (Entry κ)}
    (hl : ∀ e ∈ l, e ∈ plan.entries) (hs : Follows bound s s') :
    Follows bound (run records s l) (run records' s' l) := by
  induction l generalizing s s' with
  | nil => exact hs
  | cons e rest ih =>
    refine ih (fun x hx => hl x (List.mem_cons_of_mem e hx)) fun id => ?_
    by_cases hid : id = e.id
    · subst hid
      exact Or.inr ⟨_, _, due?_visit_self, due?_visit_self,
        fun a ha hlt => h.lt_visitDue (hl e List.mem_cons_self) hs ha hlt⟩
    · rw [due?_visit_of_ne hid, due?_visit_of_ne hid]
      exact hs id

theorem Advanced.stale_of_stale (h : Advanced plan bound records records')
    (hsame : (recordOf records' id).computed = (recordOf records id).computed)
    (hlt : (recordOf records id).computed < bound) (hstale : id ∈ (ofPlan plan records).stale) :
    id ∈ (ofPlan plan records').stale := by
  rw [ofPlan_eq_run, mem_stale_run_iff] at hstale ⊢
  rcases hstale with ⟨⟨⟩⟩ | ⟨before, e, after, hvisits, hid, hdue⟩
  have hmem : ∀ x ∈ before ++ e :: after, x ∈ plan.entries := fun x hx =>
    Plan.mem_visits_iff.mp (hvisits ▸ hx)
  have hfollows : Follows bound (run records start before) (run records' start before) :=
    h.follows_run (fun x hx => hmem x (List.mem_append_left _ hx)) fun _ => Or.inl ⟨rfl, rfl⟩
  refine Or.inr ⟨before, e, after, hvisits, hid, ?_⟩
  rw [hsame]
  exact h.lt_visitDue (hmem e (by simp)) hfollows hlt hdue

/-! ## Stores that agree on the cells of a plan -/

/-- Two stores say the same of the cells of a plan. What they hold for other cells is left open. -/
structure Agree (plan : Plan κ) (records records' : Records ν) : Prop where
  contains : ∀ id ∈ plan.order, records.contains id = records'.contains id
  answered : ∀ id ∈ plan.order, (recordOf records id).answered = (recordOf records' id).answered
  computed : ∀ id ∈ plan.order, (recordOf records id).computed = (recordOf records' id).computed
  consulted : ∀ id ∈ plan.order,
    (recordOf records id).consulted = (recordOf records' id).consulted

/-- An input of the last run that the plan does not list forces a run, whether or not there is still a
record of it. -/
theorem usedTime_of_notMem (hP : plan.Sound) (he : e ∈ plan.entries) (hid : id ∉ plan.order)
    (hs : s.due? id = none) : usedTime records e.node s id = .latest := by
  have hreads : e.node.reads id ≠ true := fun hreads =>
    hid (hP.feeds_mem ((hP.mem_inputIds_iff he).mp (Node.mem_inputIds_iff.mpr hreads))).1
  rw [usedTime, hs]
  dsimp only
  rw [if_neg hreads, ite_self]

theorem Agree.visitDue_eq (h : Agree plan records records') (hP : plan.Sound)
    (hs : ∀ id, id ∉ plan.order → s.due? id = none) (he : e ∈ plan.entries) :
    visitDue records s e = visitDue records' s e := by
  have hid : e.id ∈ plan.order := List.mem_map_of_mem he
  have hused : ∀ u, usedTime records e.node s u = usedTime records' e.node s u := by
    intro u
    by_cases hu : u ∈ plan.order
    · rw [usedTime, usedTime, h.contains u hu]
    · rw [usedTime_of_notMem hP he hu (hs u hu), usedTime_of_notMem hP he hu (hs u hu)]
  rw [visitDue, visitDue, dueTime, dueTime, h.answered e.id hid, h.computed e.id hid,
    h.consulted e.id hid, funext hused]

theorem Agree.run_eq (h : Agree plan records records') (hP : plan.Sound) {l : List (Entry κ)}
    (hl : ∀ x ∈ l, x ∈ plan.entries) (hs : ∀ id, id ∉ plan.order → s.due? id = none) :
    run records s l = run records' s l := by
  induction l generalizing s with
  | nil => rfl
  | cons x rest ih =>
    have hx := hl x List.mem_cons_self
    have hid : x.id ∈ plan.order := List.mem_map_of_mem hx
    have hvisit : visit records s x = visit records' s x := by
      have hdue := h.visitDue_eq hP hs hx
      rw [visitDue, visitDue] at hdue
      rw [visit, visit, hdue, h.computed x.id hid]
    rw [run_cons, run_cons, hvisit]
    refine ih (fun y hy => hl y (List.mem_cons_of_mem x hy)) fun id hnot => ?_
    have hne : id ≠ x.id := fun heq => hnot (heq ▸ hid)
    rw [due?_visit_of_ne hne]
    exact hs id hnot

theorem Agree.ofPlan_eq (h : Agree plan records records') (hP : plan.Sound) :
    ofPlan plan records = ofPlan plan records' :=
  h.run_eq hP (fun _ hx => Plan.mem_visits_iff.mp hx) fun _ _ => rfl

end Survey

end Recalc
