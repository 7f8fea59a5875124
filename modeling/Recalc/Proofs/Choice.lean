import Mathlib.Data.Finset.Max
import Recalc.Choice
import Recalc.Proofs.Graph.Sorting
import Recalc.Proofs.Survey

/-!
# What a tick chooses

An origin of a survey is a stale cell that reads, directly or through others, only from stale cells
that read from it in turn. Every stale cell has an origin among the cells that it reads from
(`exists_origin`), and an origin that can run is a candidate, so a choice is empty only if nothing is
stale. The candidate that comes first in the plan is an origin itself if no origin is faulty
(`origin_of_first`).

The candidates are the eligible cells in the order of the plan. Each of them is held against the choice
so far, which need not have been asked to run itself; in the end no candidate that has been asked to
run was asked later than the chosen one (`newest_of_runnable_ofSurvey`).
-/

namespace Recalc

open Relation
open scoped Time

variable {κ ν : Type} {plan : Plan κ} {survey : Survey} {records : Records ν}

namespace Survey

/-- A stale cell that only cells around it keep stale. -/
def Origin (plan : Plan κ) (survey : Survey) (u : CellId) : Prop :=
  u ∈ survey.stale ∧ ∀ w ∈ survey.stale, ReflTransGen plan.graph.Feeds w u →
    ReflTransGen plan.graph.Feeds u w

/-- Of the stale cells that a cell reads from, one with the fewest stale cells to read from is an
origin. -/
theorem exists_origin (plan : Plan κ) {v : CellId} (hv : v ∈ survey.stale) :
    ∃ u, Origin plan survey u ∧ ReflTransGen plan.graph.Feeds u v := by
  classical
  let sources := fun u => survey.stale.toFinset.filter fun w => ReflTransGen plan.graph.Feeds w u
  obtain ⟨u, hu, hmin⟩ := (sources v).exists_min_image (fun u => (sources u).card)
    ⟨v, by simpa [sources] using ⟨hv, .refl⟩⟩
  obtain ⟨hstale, huv⟩ : u ∈ survey.stale ∧ ReflTransGen plan.graph.Feeds u v := by
    simpa [sources] using hu
  refine ⟨u, ⟨hstale, fun w hw hwu => ?_⟩, huv⟩
  have hsub : sources w ⊆ sources u := by
    intro x hx
    obtain ⟨hx, hxw⟩ : x ∈ survey.stale ∧ ReflTransGen plan.graph.Feeds x w := by
      simpa [sources] using hx
    simpa [sources] using ⟨hx, hxw.trans hwu⟩
  have hle := hmin w (by simpa [sources] using ⟨hw, hwu.trans huv⟩)
  have heq := Finset.eq_of_subset_of_card_le hsub hle
  have hself : u ∈ sources w := heq ▸ (by simpa [sources] using ⟨hstale, .refl⟩)
  simpa [sources] using (Finset.mem_filter.mp hself).2

end Survey

namespace Choice

open Survey

theorem mem_faults_ofSurvey_iff {f : Faulty} :
    f ∈ (ofSurvey plan survey records).faults ↔ f ∈ plan.faults ∧ f.node.id ∈ survey.stale := by
  simp [ofSurvey, isStale]

theorem nodup_faults_ofSurvey (hP : plan.Sound) :
    ((ofSurvey plan survey records).faults.map fun f => f.node.id).Nodup := by
  have hfaults : (plan.faults.map fun f => f.node.id).Nodup :=
    (List.nodup_append.mp (plan.runnables_append_faults_perm.nodup_iff.mpr hP.nodup_order)).2.1
  exact hfaults.sublist (List.filter_sublist.map _)

theorem isCandidate_iff (hP : plan.Sound) {r : Runnable κ} (hr : r ∈ plan.runnables) :
    isCandidate plan survey r = true ↔ r.node.id ∈ survey.stale ∧
      ∀ u, plan.graph.Feeds u r.node.id → u ∈ survey.stale → ¬ plan.CanRun u := by
  have hin : ∀ u, u ∈ r.node.inputIds ↔ plan.graph.Feeds u r.node.id := fun u =>
    hP.mem_inputIds_iff (Plan.mem_runnables_iff.mp hr)
  simp only [isCandidate, isStale, Bool.and_eq_true, Bool.not_eq_true', List.any_eq_false,
    List.contains_iff_mem, hP.isSome_runnable?_iff, not_and, hin]

theorem foldl_prefer (records : Records ν) (first : Runnable κ) (rest : List (Runnable κ)) :
    rest.foldl (prefer records) first = first ∨
      rest.foldl (prefer records) first ∈ rest ∧
        hasRequest records (rest.foldl (prefer records) first) = true := by
  induction rest generalizing first with
  | nil => exact Or.inl rfl
  | cons c rest ih =>
    rw [List.foldl_cons]
    rcases ih (prefer records first c) with h | ⟨hmem, hreq⟩
    · rw [h, prefer]
      split
      · next hc => exact Or.inr ⟨List.mem_cons_self, hc.1⟩
      · exact Or.inl rfl
    · exact Or.inr ⟨List.mem_cons_of_mem c hmem, hreq⟩

/-- The cell chosen to run is a candidate, and the first unless it has been asked to run. -/
theorem of_runnable_ofSurvey {r : Runnable κ}
    (h : (ofSurvey plan survey records).runnable = some r) :
    (r ∈ plan.runnables ∧ isCandidate plan survey r = true) ∧
      (hasRequest records r = true ∨
        ∃ rest, plan.runnables.filter (isCandidate plan survey) = r :: rest) := by
  rw [ofSurvey] at h
  dsimp only at h
  split at h
  · cases h
  · next first rest hcandidates =>
    have hmem : ∀ c ∈ first :: rest, c ∈ plan.runnables ∧ isCandidate plan survey c = true :=
      fun c hc => List.mem_filter.mp (hcandidates ▸ hc)
    rw [Option.some.injEq] at h
    rcases foldl_prefer records first rest with hfirst | ⟨hrest, hreq⟩
    · rw [hfirst] at h
      subst h
      exact ⟨hmem _ List.mem_cons_self, Or.inr ⟨rest, hcandidates⟩⟩
    · rw [h] at hrest hreq
      exact ⟨hmem r (List.mem_cons_of_mem first hrest), Or.inl hreq⟩

theorem exists_runnable_ofSurvey (records : Records ν) {r : Runnable κ} (hr : r ∈ plan.runnables)
    (h : isCandidate plan survey r = true) :
    ∃ r', (ofSurvey plan survey records).runnable = some r' := by
  have hmem : r ∈ plan.runnables.filter (isCandidate plan survey) := List.mem_filter.mpr ⟨hr, h⟩
  rw [ofSurvey]
  dsimp only
  split
  · next hnil =>
    rw [hnil] at hmem
    cases hmem
  · exact ⟨_, rfl⟩

theorem isCandidate_of_origin (hP : plan.Sound) {r : Runnable κ} (hr : r ∈ plan.runnables)
    (h : Origin plan survey r.node.id) : isCandidate plan survey r = true := by
  rw [isCandidate_iff hP hr]
  refine ⟨h.1, fun u hu hstale _ => hP.acyclic r hr ?_⟩
  exact .tail' (h.2 u hstale (.single hu)) hu

theorem ofSurvey_nonempty (records : Records ν) (hP : plan.Sound)
    (horder : ∀ id ∈ survey.stale, id ∈ plan.order) {v : CellId} (hv : v ∈ survey.stale) :
    (∃ f, f ∈ (ofSurvey plan survey records).faults) ∨
      ∃ r, (ofSurvey plan survey records).runnable = some r := by
  obtain ⟨u, hu, _⟩ := exists_origin plan hv
  rcases Plan.canRun_or_faulty (horder u hu.1) with ⟨r, hr, rfl⟩ | ⟨f, hf, rfl⟩
  · exact Or.inr (exists_runnable_ofSurvey records hr (isCandidate_of_origin hP hr hu))
  · exact Or.inl ⟨f, mem_faults_ofSurvey_iff.mpr ⟨hf, hu.1⟩⟩

/-- The first candidate of a plan without faulty origins is an origin: an origin that it reads from
would be a candidate before it. -/
theorem origin_of_first (hP : plan.Sound)
    (hrun : ∀ u, Origin plan survey u → plan.CanRun u) {r : Runnable κ} {rest : List (Runnable κ)}
    (hfirst : plan.runnables.filter (isCandidate plan survey) = r :: rest) :
    Origin plan survey r.node.id := by
  obtain ⟨hr, hcandidate⟩ :=
    List.mem_filter.mp (hfirst ▸ List.mem_cons_self : r ∈ plan.runnables.filter _)
  obtain ⟨u, hu, hreach⟩ :=
    exists_origin plan ((isCandidate_iff hP hr).mp hcandidate).1
  obtain ⟨r', hr', rfl⟩ := hrun u hu
  cases reflTransGen_iff_eq_or_transGen.mp hreach with
  | inl heq => exact heq ▸ hu
  | inr htrans =>
    -- the origin stands before `r` in the plan, so `r` would not be the first candidate
    exfalso
    obtain ⟨before, after, hentries⟩ := List.append_of_mem (Plan.mem_runnables_iff.mp hr)
    obtain ⟨x, hx, hid⟩ := hP.mem_before hentries htrans
    have hx' : x = .runnable r' := hP.eq_of_id_eq (hentries ▸ List.mem_append_left _ hx)
      (Plan.mem_runnables_iff.mp hr') hid
    have hearlier : r' ∈ (before.filterMap Entry.runnable?).filter (isCandidate plan survey) :=
      List.mem_filter.mpr ⟨List.mem_filterMap.mpr ⟨x, hx, hx' ▸ rfl⟩,
        isCandidate_of_origin hP hr' hu⟩
    rw [Plan.runnables, hentries, List.filterMap_append, List.filter_append] at hfirst
    have hmem : r ∈ (before.filterMap Entry.runnable?).filter (isCandidate plan survey) := by
      cases hlist : (before.filterMap Entry.runnable?).filter (isCandidate plan survey) with
      | nil =>
        rw [hlist] at hearlier
        cases hearlier
      | cons y _ =>
        rw [hlist, List.cons_append] at hfirst
        exact (List.cons.inj hfirst).1 ▸ List.mem_cons_self
    obtain ⟨e, he, her⟩ := List.mem_filterMap.mp (List.mem_filter.mp hmem).1
    have hagain : r.node.id ∈ before.map Entry.id := by
      cases e with
      | runnable r'' =>
        cases her
        exact List.mem_map_of_mem he
      | faulty f => cases her
    have hnodup := hP.nodup_order
    rw [Plan.order, hentries, List.map_append, List.nodup_append] at hnodup
    exact hnodup.2.2 _ hagain _ List.mem_cons_self rfl

/-! ## The newest request -/

/-- A stale cell that can run and reads from no stale cell that can run. -/
structure Eligible (plan : Plan κ) (survey : Survey) (r : Runnable κ) : Prop where
  mem : r ∈ plan.runnables
  stale : r.node.id ∈ survey.stale
  inputs : ∀ u, plan.graph.Feeds u r.node.id → plan.CanRun u → u ∉ survey.stale

/-- The last run of a cell came before the request. -/
def IsOpen (records : Records ν) (r : Runnable κ) : Prop :=
  (recordOf records r.node.id).answered < r.requested

theorem mem_candidates_iff (hP : plan.Sound) {r : Runnable κ} :
    r ∈ plan.runnables.filter (isCandidate plan survey) ↔ Eligible plan survey r := by
  rw [List.mem_filter]
  constructor
  · rintro ⟨hr, hcandidate⟩
    obtain ⟨hstale, hinputs⟩ := (isCandidate_iff hP hr).mp hcandidate
    exact ⟨hr, hstale, fun u hu hrun hmem => hinputs u hu hmem hrun⟩
  · intro h
    exact ⟨h.mem, (isCandidate_iff hP h.mem).mpr
      ⟨h.stale, fun u hu hmem hrun => h.inputs u hu hrun hmem⟩⟩

/-- Among the stale cells that can run, the first in the order of the plan is eligible. -/
theorem exists_eligible (hP : plan.Sound) {r : Runnable κ} (hr : r ∈ plan.runnables)
    (hstale : r.node.id ∈ survey.stale) : ∃ r', Eligible plan survey r' := by
  induction hn : plan.order.idxOf r.node.id using Nat.strongRecOn generalizing r with
  | ind n ih =>
    by_cases hinputs : ∀ u, plan.graph.Feeds u r.node.id → plan.CanRun u → u ∉ survey.stale
    · exact ⟨r, hr, hstale, hinputs⟩
    · push Not at hinputs
      obtain ⟨u, hu, ⟨r', hr', rfl⟩, hstale'⟩ := hinputs
      have hidx : plan.order.idxOf r'.node.id < plan.order.idxOf r.node.id := by
        rw [hP.order_eq]
        exact Graph.idxOf_order_lt hP.closed hu fun hback =>
          hP.acyclic r hr (.tail' hback hu)
      exact ih _ (hn ▸ hidx) hr' hstale' rfl

theorem runnable_ofSurvey_eq_none_iff (records : Records ν) (hP : plan.Sound) :
    (ofSurvey plan survey records).runnable = none ↔ ∀ id ∈ survey.stale, ¬ plan.CanRun id := by
  constructor
  · rintro hnone id hstale ⟨r, hr, rfl⟩
    obtain ⟨r', hr'⟩ := exists_eligible hP hr hstale
    obtain ⟨r'', hsome⟩ := exists_runnable_ofSurvey records hr'.mem
      (List.mem_filter.mp ((mem_candidates_iff hP).mpr hr')).2
    rw [hnone] at hsome
    cases hsome
  · intro h
    refine Option.eq_none_iff_forall_ne_some.mpr fun r hr => ?_
    obtain ⟨⟨hmem, hcandidate⟩, _⟩ := of_runnable_ofSurvey hr
    exact h r.node.id ((isCandidate_iff hP hmem).mp hcandidate).1 ⟨r, hmem, rfl⟩

theorem le_requested_prefer (records : Records ν) (r c : Runnable κ) :
    r.requested ≤ (prefer records r c).requested := by
  rw [prefer]
  split
  · next h => exact le_of_lt h.2
  · exact le_rfl

theorem requested_le_prefer {r c : Runnable κ} (hc : hasRequest records c = true) :
    c.requested ≤ (prefer records r c).requested := by
  rw [prefer]
  split
  · exact le_rfl
  · next h => exact not_lt.mp fun hlt => h ⟨hc, hlt⟩

theorem le_requested_foldl_prefer (records : Records ν) (first : Runnable κ)
    (rest : List (Runnable κ)) : first.requested ≤ (rest.foldl (prefer records) first).requested := by
  induction rest generalizing first with
  | nil => exact le_rfl
  | cons c rest ih => exact le_trans (le_requested_prefer records first c) (ih _)

/-- Whatever the choice passes through on its way, it ends with a request no older than any that is
open. -/
theorem requested_le_foldl_prefer {rest : List (Runnable κ)} {c : Runnable κ} (hc : c ∈ rest)
    (hreq : hasRequest records c = true) (first : Runnable κ) :
    c.requested ≤ (rest.foldl (prefer records) first).requested := by
  induction rest generalizing first with
  | nil => cases hc
  | cons x rest ih =>
    rcases List.mem_cons.mp hc with rfl | hc
    · exact le_trans (requested_le_prefer hreq) (le_requested_foldl_prefer records _ rest)
    · exact ih hc _

theorem foldl_prefer_eq_or_lt (records : Records ν) (first : Runnable κ)
    (rest : List (Runnable κ)) : rest.foldl (prefer records) first = first ∨
      first.requested < (rest.foldl (prefer records) first).requested := by
  induction rest generalizing first with
  | nil => exact Or.inl rfl
  | cons c rest ih =>
    rw [List.foldl_cons]
    by_cases hc : hasRequest records c = true ∧ first.requested < c.requested
    · rw [prefer, if_pos hc]
      exact Or.inr (lt_of_lt_of_le hc.2 (le_requested_foldl_prefer records c rest))
    · rw [prefer, if_neg hc]
      exact ih first

theorem sublist_order (plan : Plan κ) :
    (plan.runnables.map fun r => r.node.id).Sublist plan.order := by
  rw [Plan.runnables, Plan.order]
  induction plan.entries with
  | nil => exact .slnil
  | cons e rest ih =>
    cases e with
    | runnable r => exact ih.cons_cons _
    | faulty f => exact ih.cons _

theorem first_eligible (hP : plan.Sound) {first : Runnable κ} {rest : List (Runnable κ)}
    (hcandidates : plan.runnables.filter (isCandidate plan survey) = first :: rest) :
    Eligible plan survey first ∧ ∀ c, Eligible plan survey c →
      plan.order.idxOf first.node.id ≤ plan.order.idxOf c.node.id := by
  have hmem : ∀ c, c ∈ first :: rest ↔ Eligible plan survey c := fun c =>
    hcandidates ▸ mem_candidates_iff hP
  have hsublist : ((first :: rest).map fun r => r.node.id).Sublist plan.order :=
    hcandidates ▸ (List.filter_sublist.map _).trans (sublist_order plan)
  have hsorted := List.pairwise_cons.mp ((pairwise_idxOf hP.nodup_order).sublist hsublist)
  refine ⟨(hmem first).mp List.mem_cons_self, fun c hc => ?_⟩
  rcases List.mem_cons.mp ((hmem c).mpr hc) with rfl | hrest
  · exact le_rfl
  · exact le_of_lt (hsorted.1 _ (List.mem_map_of_mem hrest))

/-- What the choice of a cell to run says, if requests are open just where they differ from what the last
run answered. -/
theorem newest_of_runnable_ofSurvey (hP : plan.Sound)
    (hopen : ∀ r ∈ plan.runnables, hasRequest records r = true ↔ IsOpen records r) {r : Runnable κ}
    (h : (ofSurvey plan survey records).runnable = some r) :
    Eligible plan survey r ∧
      (∀ c, Eligible plan survey c → IsOpen records c → c.requested ≤ r.requested) ∧
      ∃ first, Eligible plan survey first ∧
        (∀ c, Eligible plan survey c →
          plan.order.idxOf first.node.id ≤ plan.order.idxOf c.node.id) ∧
        (r = first ∨ IsOpen records r ∧ first.requested < r.requested) := by
  rw [ofSurvey] at h
  dsimp only at h
  split at h
  · cases h
  · next first rest hcandidates =>
    have hmem : ∀ c, c ∈ first :: rest ↔ Eligible plan survey c := fun c =>
      hcandidates ▸ mem_candidates_iff hP
    obtain rfl := Option.some.inj h
    obtain ⟨hfirst, hbefore⟩ := first_eligible hP hcandidates
    have hcases := foldl_prefer records first rest
    have hchosen : Eligible plan survey (rest.foldl (prefer records) first) := by
      rcases hcases with heq | ⟨hrest, _⟩
      · exact heq.symm ▸ hfirst
      · exact (hmem _).mp (List.mem_cons_of_mem first hrest)
    refine ⟨hchosen, fun c hc hreq => ?_, first, hfirst, hbefore, ?_⟩
    · rcases List.mem_cons.mp ((hmem c).mpr hc) with rfl | hrest
      · exact le_requested_foldl_prefer records _ rest
      · exact requested_le_foldl_prefer hrest ((hopen c hc.mem).mpr hreq) first
    · rcases hcases with heq | ⟨_, hreq⟩
      · exact Or.inl heq
      · refine (foldl_prefer_eq_or_lt records first rest).imp id fun hlt => ⟨?_, hlt⟩
        exact (hopen _ hchosen.mem).mp hreq

/-- The faulty cells of a choice are the stale ones, in the order of the plan. -/
theorem faults_ofSurvey_eq_filter (records : Records ν) (hP : plan.Sound) :
    (ofSurvey plan survey records).faults.map (fun f => f.node.id) =
      plan.order.filter fun id => survey.isStale id && (plan.faulty? id).isSome := by
  have hfault : ∀ e ∈ plan.entries, plan.faulty? e.id = e.faulty? := fun e he => by
    rw [Plan.faulty?, hP.find?_eq_some_iff.mpr ⟨he, rfl⟩, Option.bind_some]
  have hlist : ∀ l : List (Entry κ), (∀ e ∈ l, e ∈ plan.entries) →
      ((l.filterMap Entry.faulty?).filter fun f => survey.isStale f.node.id).map
          (fun f => f.node.id) =
        (l.map Entry.id).filter fun id => survey.isStale id && (plan.faulty? id).isSome := by
    intro l hl
    induction l with
    | nil => rfl
    | cons e rest ih =>
      have hrest := ih fun x hx => hl x (List.mem_cons_of_mem e hx)
      have he := hfault e (hl e List.mem_cons_self)
      rw [List.map_cons, List.filter_cons, he, ← hrest]
      cases e with
      | runnable r => simp [List.filterMap_cons, Entry.faulty?]
      | faulty f =>
        have hid : (Entry.faulty f : Entry κ).id = f.node.id := rfl
        rw [hid]
        by_cases hs : survey.isStale f.node.id = true <;> simp [Entry.faulty?, hs]
  exact hlist plan.entries fun _ h => h

end Choice

end Recalc
