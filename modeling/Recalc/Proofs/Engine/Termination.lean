import Mathlib.Data.Finset.Card
import Recalc.Proofs.Engine.Settling

/-!
# When settling ends

A stale cell on a cycle is served at once, so a cycle comes to rest if all its members are stale at the
same tick. It is torn if a tick finds some of its members stale and others not, while nothing outside
the cycle keeps it stale: then the members that were not stale see newer inputs after the tick, the
others do not, and the cycle is torn again (`torn_tick`). Settling goes on for ever.

That is the only way in which it does. A tick that finds something stale and no cycle torn answers a
request or brings a cell to rest for good (`exists_progress`), so that there are at most two such ticks
for every cell.
-/

namespace Recalc

open Relation
open scoped Time

theorem exists_change {α : Type} {r : α → α → Prop} {p : α → Prop} {a b : α}
    (h : ReflTransGen r a b) (ha : p a) (hb : ¬ p b) :
    ∃ x y, ReflTransGen r a x ∧ r x y ∧ ReflTransGen r y b ∧ p x ∧ ¬ p y := by
  induction h using ReflTransGen.head_induction_on with
  | refl => exact absurd ha hb
  | @head a c hac hcb ih =>
    by_cases hc : p c
    · obtain ⟨x, y, hcx, hxy, hyb, hx, hy⟩ := ih hc
      exact ⟨x, y, .head hac hcx, hxy, hyb, hx, hy⟩
    · exact ⟨a, c, .refl, hac, hcb, ha, hc⟩

variable {κ ν : Type}

namespace World

variable {runner : Runner κ ν} {settings : Settings} {w : World κ ν} {u v z : CellId}

def Origin (w : World κ ν) (u : CellId) : Prop :=
  Survey.Origin (Plan.draft w.notebook) (w.engine.survey w.notebook) u

/-- Of the cells on a cycle some are stale and others are not, and only they keep each other stale. -/
def Torn (w : World κ ν) : Prop :=
  ∃ u v, w.Origin u ∧ (Plan.graphOf w.notebook).Joined u v ∧
    v ∉ (w.engine.survey w.notebook).stale

section Origin

variable (hw : Reachable runner settings w) (hu : w.Origin u)

include hw hu

theorem mem_codeIds_of_origin : u ∈ w.notebook.codeIds :=
  Engine.mem_codeIds_of_mem_stale hw.consistent.valid hu.1

theorem calm_of_origin (hz : ReflTransGen (Plan.graphOf w.notebook).Feeds z u)
    (hout : ¬ (Plan.graphOf w.notebook).Joined u z) :
    Survey.Calm (Plan.draft w.notebook) w.engine.imprint z := by
  have hmem := mem_codeIds_of_reach hw.consistent.valid (mem_codeIds_of_origin hw hu) hz
  refine calm_of_not_stale hw hmem fun x hx hstale => hout ⟨?_, hz⟩
  exact (hu.2 x hstale (hx.trans hz)).trans hx

theorem not_stale_tick_of_origin (hz : ReflTransGen (Plan.graphOf w.notebook).Feeds z u)
    (hout : ¬ (Plan.graphOf w.notebook).Joined u z) :
    z ∉ ((w.move runner .tick).engine.survey w.notebook).stale := by
  have hV := hw.consistent.valid
  have hmem := mem_codeIds_of_reach hV (mem_codeIds_of_origin hw hu) hz
  have hcalm := calm_of_origin hw hu hz hout
  exact Engine.not_stale_of_calm hV (calm_tick runner hw.consistent hmem hcalm)

theorem calm_tick_of_origin
    (hserves : ∀ z, (Plan.graphOf w.notebook).Joined u z → w.engine.Serves w.notebook z) :
    Survey.Calm (Plan.draft w.notebook) (w.move runner .tick).engine.imprint u := by
  have hc := hw.consistent
  intro z hz
  by_cases hjoined : (Plan.graphOf w.notebook).Joined u z
  · exact quiet_tick_of_serves runner hc (hserves z hjoined)
  · have hmem := mem_codeIds_of_reach hc.valid (mem_codeIds_of_origin hw hu) hz
    exact calm_tick runner hc hmem (calm_of_origin hw hu hz hjoined) z .refl

/-- Around an origin, what a tick does not serve was not stale and keeps its imprint. -/
theorem served_or_quiet (hne : ∀ z, (Plan.graphOf w.notebook).Joined u z →
      TransGen (Plan.graphOf w.notebook).Feeds z z)
    (hz : ReflTransGen (Plan.graphOf w.notebook).Feeds z u) :
    w.engine.Serves w.notebook z ∨
      z ∉ (w.engine.survey w.notebook).stale ∧
        Survey.Quiet (Plan.draft w.notebook) w.engine.imprint z ∧
        (w.move runner .tick).engine.imprint z = w.engine.imprint z := by
  have hV := hw.consistent.valid
  have hmem := mem_codeIds_of_reach hV (mem_codeIds_of_origin hw hu) hz
  by_cases hstale : z ∈ (w.engine.survey w.notebook).stale
  · exact Or.inl (Engine.serves_of_cyclic hV hstale (hne z ⟨hu.2 z hstale hz, hz⟩))
  · obtain ⟨c, hc, rfl⟩ := List.mem_map.mp hmem
    refine Or.inr ⟨hstale, quiet_of_not_stale hw hc hstale, ?_⟩
    exact imprint_tick_of_not_serves runner hw.consistent hmem fun h =>
      hstale (Engine.mem_stale_of_serves hV h)

/-- A member of the cycle around an origin that has been served is not stale at the next tick: nothing
that feeds it has run later. -/
theorem not_stale_tick_of_serves (hne : ∀ z, (Plan.graphOf w.notebook).Joined u z →
      TransGen (Plan.graphOf w.notebook).Feeds z z)
    (hv : ReflTransGen (Plan.graphOf w.notebook).Feeds v u)
    (hserves : w.engine.Serves w.notebook v) :
    v ∉ ((w.move runner .tick).engine.survey w.notebook).stale := by
  have hc := hw.consistent
  have hV := hc.valid
  have hP := Plan.sound_draft hV
  have hnow := now_tick runner hV
  have hquiet : ∀ z, ReflTransGen (Plan.graphOf w.notebook).Feeds z u →
      (∀ x ∈ (Plan.draft w.notebook).entries, x.id = z →
        x.requested ≤ ((w.move runner .tick).engine.imprint z).answered) ∧
      ((w.move runner .tick).engine.imprint z).consulted = (Plan.graphOf w.notebook).sources z := by
    intro z hz
    rcases served_or_quiet hw hu hne hz with hserved | ⟨_, hq, himprint⟩
    · have hq := quiet_tick_of_serves runner hc hserved
      exact ⟨hq.answered, hq.consulted⟩
    · rw [himprint]
      exact ⟨hq.answered, hq.consulted⟩
  -- no due time around the origin is later than the tick, at which `v` ran
  have hbounded : Survey.Bounded (Plan.draft w.notebook)
      ((w.move runner .tick).engine.enrollAll w.notebook).records
      (fun z => ReflTransGen (Plan.graphOf w.notebook).Feeds z u)
      fun _ => w.engine.clock.advance.now := by
    refine ⟨fun x hx hz => ?_, fun x _ _ => ?_, fun x hx hz y hy => ?_, ?_⟩
    · rw [Engine.answered_recordOf]
      exact (hquiet x.id hz).1 x hx rfl
    · rw [Engine.computed_recordOf, ← hnow]
      exact (hc.tick runner).computed_le x.id
    · rw [Engine.consulted_recordOf, (hquiet x.id hz).2, Graph.mem_sources_iff] at hy
      refine ⟨Engine.contains_enrollAll_iff.mpr (Or.inr ?_), hy⟩
      exact (mem_codeIds_of_feeds hV hy).1
    · exact fun _ _ hf hz => ⟨.head hf hz, le_rfl⟩
  refine hbounded.not_stale hP hv ?_
  rw [Engine.computed_recordOf]
  exact le_of_eq (computed_tick_of_serves hc hserves).symm

end Origin

theorem torn_tick (hw : Reachable runner settings w) (h : w.Torn) :
    (w.move runner .tick).Torn := by
  obtain ⟨u, v, hu, hjoined, hv⟩ := h
  have hc := hw.consistent
  have hV := hc.valid
  have hcyclic : ∀ z, (Plan.graphOf w.notebook).Joined u z →
      TransGen (Plan.graphOf w.notebook).Feeds z z := fun z hz =>
    hjoined.transGen (fun heq => hv (heq ▸ hu.1)) hz
  -- on the way from `u` to `v` a stale cell feeds one that is not; after the tick it is the other way
  obtain ⟨x, y, hux, hxy, hyv, hx, hy⟩ := exists_change hjoined.1 hu.1 hv
  have hyu : ReflTransGen (Plan.graphOf w.notebook).Feeds y u := hyv.trans hjoined.2
  have hxu : ReflTransGen (Plan.graphOf w.notebook).Feeds x u := .head hxy hyu
  have huy : ReflTransGen (Plan.graphOf w.notebook).Feeds u y := hux.tail hxy
  have hserves : w.engine.Serves w.notebook x :=
    Engine.serves_of_cyclic hV hx (hcyclic x ⟨hux, hxu⟩)
  refine ⟨y, x, ⟨?_, fun z hz hzy => ?_⟩, ⟨hyu.trans hux, .single hxy⟩,
    not_stale_tick_of_serves hw hu hcyclic hxu hserves⟩
  · by_contra hstale
    obtain ⟨c, hcell, rfl⟩ := List.mem_map.mp (mem_codeIds_of_feeds hV hxy).2
    exact not_quiet_tick hc hxy hserves
      (fun h => hy (Engine.mem_stale_of_serves hV h))
      (quiet_of_not_stale (.move .tick hw) hcell hstale)
  · have hzu : ReflTransGen (Plan.graphOf w.notebook).Feeds z u := hzy.trans hyu
    have hjoin : (Plan.graphOf w.notebook).Joined u z := by
      by_contra hout
      exact not_stale_tick_of_origin hw hu hzu hout hz
    exact hyu.trans hjoin.1

theorem torn_afterTicks (hw : Reachable runner settings w) (h : w.Torn) (n : Nat) :
    (w.afterTicks runner n).Torn := by
  induction n generalizing w with
  | zero => exact h
  | succ n ih => exact ih (.move .tick hw) (torn_tick hw h)

theorem not_settled_of_torn (h : w.Torn) : ¬ w.Settled := by
  obtain ⟨u, _, hu, _⟩ := h
  exact fun hsettled => List.not_mem_nil (hsettled ▸ hu.1)

theorem settled_tick (hw : Reachable runner settings w) (h : w.Settled) :
    (w.move runner .tick).Settled := by
  have hc := hw.consistent
  refine List.eq_nil_iff_forall_not_mem.mpr fun v hv => ?_
  have hmem : v ∈ w.notebook.codeIds := Engine.mem_codeIds_of_mem_stale hc.valid hv
  refine Engine.not_stale_of_calm hc.valid (calm_tick runner hc hmem ?_) hv
  exact calm_of_not_stale hw hmem fun u _ => h ▸ List.not_mem_nil

/-! ## Progress -/

/-- The last request of the cell has not been answered by its last run. -/
def Asked (w : World κ ν) (id : CellId) : Prop :=
  ∃ x ∈ (Plan.draft w.notebook).entries, x.id = id ∧
    x.requested ≠ (w.engine.imprint id).answered

theorem asked_of_asked_tick (hw : w.Consistent) (h : (w.move runner .tick).Asked v) :
    w.Asked v ∧ ¬ w.engine.Serves w.notebook v := by
  obtain ⟨x, hx, rfl, hne⟩ := h
  have hnot : ¬ w.engine.Serves w.notebook x.id := by
    intro hserves
    obtain ⟨y, hy, hid, result, hspec⟩ := Engine.served_spec runner hw.valid hserves
    have himprint : (w.move runner .tick).engine.imprint x.id = _ := hspec
    rw [himprint, (Plan.sound_draft hw.valid).eq_of_id_eq hy hx hid] at hne
    exact hne rfl
  rw [imprint_tick_of_not_serves runner hw (Engine.mem_codeIds_of_mem_entries hw.valid hx)
    hnot] at hne
  exact ⟨⟨x, hx, rfl, hne⟩, hnot⟩

/-- A tick that finds something stale and nothing torn brings a cell to rest or answers a request. -/
theorem exists_progress (hw : Reachable runner settings w) (hstale : ¬ w.Settled)
    (htorn : ¬ w.Torn) :
    (∃ u ∈ w.notebook.codeIds, ¬ Survey.Calm (Plan.draft w.notebook) w.engine.imprint u ∧
      Survey.Calm (Plan.draft w.notebook) (w.move runner .tick).engine.imprint u) ∨
    ∃ u ∈ w.notebook.codeIds, w.Asked u ∧ w.engine.Serves w.notebook u := by
  have hV := hw.consistent.valid
  have hP := Plan.sound_draft hV
  have hrest : ∀ u, w.Origin u →
      (∀ z, (Plan.graphOf w.notebook).Joined u z → w.engine.Serves w.notebook z) →
      ∃ u ∈ w.notebook.codeIds, ¬ Survey.Calm (Plan.draft w.notebook) w.engine.imprint u ∧
        Survey.Calm (Plan.draft w.notebook) (w.move runner .tick).engine.imprint u := fun u hu hs =>
    ⟨u, mem_codeIds_of_origin hw hu, fun h => Engine.not_stale_of_calm hV h hu.1,
      calm_tick_of_origin hw hu hs⟩
  -- a faulty origin is served with its whole cycle; without one the first candidate is an origin
  by_cases hfaulty : ∃ f ∈ (Plan.draft w.notebook).faults, w.Origin f.node.id
  · obtain ⟨f, hf, hu⟩ := hfaulty
    refine Or.inl (hrest f.node.id hu fun z hz => ?_)
    have hin : z ∈ (w.engine.survey w.notebook).stale := by
      by_contra hout
      exact htorn ⟨_, z, hu, hz, hout⟩
    by_cases heq : f.node.id = z
    · exact Engine.serves_of_faulty hin hf heq
    · exact Engine.serves_of_cyclic hV hin (hz.transGen heq hz)
  · have hrun : ∀ u, w.Origin u → (Plan.draft w.notebook).CanRun u := by
      intro u hu
      refine (Plan.canRun_or_faulty (Survey.mem_order_of_mem_stale hu.1)).resolve_right ?_
      rintro ⟨f, hf, rfl⟩
      exact hfaulty ⟨f, hf, hu⟩
    obtain ⟨v, hv⟩ := List.exists_mem_of_ne_nil _ hstale
    obtain ⟨u, hu, _⟩ := Survey.exists_origin (Plan.draft w.notebook) hv
    obtain ⟨r, hr, rfl⟩ := hrun u hu
    obtain ⟨r', hr'⟩ := Choice.exists_runnable_ofSurvey (w.engine.enrollAll w.notebook).records hr
      (Choice.isCandidate_of_origin hP hr hu)
    have hserves : w.engine.Serves w.notebook r'.node.id := Or.inr ⟨r', hr', rfl⟩
    obtain ⟨⟨hmem, _⟩, hrequest | ⟨rest, hfirst⟩⟩ := Choice.of_runnable_ofSurvey hr'
    · right
      refine ⟨r'.node.id, Engine.mem_codeIds_of_serves hV hserves,
        ⟨.runnable r', Plan.mem_runnables_iff.mp hmem, rfl, ?_⟩, hserves⟩
      change r'.requested ≠ _
      rw [← Engine.answered_recordOf w.engine w.notebook]
      simpa [Choice.hasRequest] using hrequest
    · left
      refine hrest r'.node.id (Choice.origin_of_first hP hrun hfirst) fun z hz => ?_
      by_cases heq : r'.node.id = z
      · exact heq ▸ hserves
      · exact absurd (hz.transGen heq ⟨.refl, .refl⟩) (hP.acyclic r' hmem)

open Classical in
noncomputable def restless (w : World κ ν) : Finset CellId :=
  w.notebook.codeIds.toFinset.filter fun id =>
    ¬ Survey.Calm (Plan.draft w.notebook) w.engine.imprint id

open Classical in
noncomputable def asked (w : World κ ν) : Finset CellId :=
  w.notebook.codeIds.toFinset.filter w.Asked

theorem mem_restless_iff : v ∈ w.restless ↔
    v ∈ w.notebook.codeIds ∧ ¬ Survey.Calm (Plan.draft w.notebook) w.engine.imprint v := by
  simp [restless]

theorem mem_asked_iff : v ∈ w.asked ↔ v ∈ w.notebook.codeIds ∧ w.Asked v := by
  simp [asked]

/-- How many cells are not yet at rest or have been asked to run, the latter counted again. -/
noncomputable def pending (w : World κ ν) : Nat := w.restless.card + w.asked.card

theorem pending_le (w : World κ ν) : w.pending ≤ 2 * w.notebook.codeIds.length := by
  have hcard := w.notebook.codeIds.toFinset_card_le
  have hrestless : w.restless.card ≤ w.notebook.codeIds.toFinset.card :=
    Finset.card_le_card fun v hv => List.mem_toFinset.mpr (mem_restless_iff.mp hv).1
  have hasked : w.asked.card ≤ w.notebook.codeIds.toFinset.card :=
    Finset.card_le_card fun v hv => List.mem_toFinset.mpr (mem_asked_iff.mp hv).1
  rw [pending]
  omega

theorem restless_tick_subset (runner : Runner κ ν) (hw : w.Consistent) :
    (w.move runner .tick).restless ⊆ w.restless := by
  intro v hv
  obtain ⟨hmem, hnot⟩ := mem_restless_iff.mp hv
  have hcells : v ∈ w.notebook.codeIds := hmem
  have hstay := calm_tick runner hw hcells
  exact mem_restless_iff.mpr ⟨hcells, fun hcalm => hnot (hstay hcalm)⟩

theorem asked_tick_subset (runner : Runner κ ν) (hw : w.Consistent) :
    (w.move runner .tick).asked ⊆ w.asked := by
  intro v hv
  obtain ⟨hmem, hasked⟩ := mem_asked_iff.mp hv
  exact mem_asked_iff.mpr ⟨hmem, (asked_of_asked_tick hw hasked).1⟩

theorem pending_tick_lt (hw : Reachable runner settings w) (hstale : ¬ w.Settled)
    (htorn : ¬ w.Torn) : (w.move runner .tick).pending < w.pending := by
  have hc := hw.consistent
  have hrestless := restless_tick_subset runner hc
  have hasked := asked_tick_subset runner hc
  have hle := Finset.card_le_card hrestless
  have hle' := Finset.card_le_card hasked
  rw [pending, pending]
  rcases exists_progress hw hstale htorn with ⟨u, hu, hbefore, hafter⟩ | ⟨u, hu, hbefore, hserves⟩
  · have hlt : (w.move runner .tick).restless.card < w.restless.card := by
      refine Finset.card_lt_card (Finset.ssubset_iff_of_subset hrestless |>.mpr ⟨u, ?_, ?_⟩)
      · exact mem_restless_iff.mpr ⟨hu, hbefore⟩
      · exact fun h => (mem_restless_iff.mp h).2 hafter
    omega
  · have hlt : (w.move runner .tick).asked.card < w.asked.card := by
      refine Finset.card_lt_card (Finset.ssubset_iff_of_subset hasked |>.mpr ⟨u, ?_, ?_⟩)
      · exact mem_asked_iff.mpr ⟨hu, hbefore⟩
      · exact fun h => (asked_of_asked_tick hc (mem_asked_iff.mp h).2).2 hserves
    omega

/-! ## The end of settling -/

theorem afterTicks_add (m n : Nat) :
    (w.afterTicks runner m).afterTicks runner n = w.afterTicks runner (m + n) := by
  induction m generalizing w with
  | zero => rw [Nat.zero_add]; rfl
  | succ m ih =>
    rw [Nat.succ_add]
    exact ih

theorem settled_afterTicks (hw : Reachable runner settings w) (h : w.Settled) (n : Nat) :
    (w.afterTicks runner n).Settled := by
  induction n generalizing w with
  | zero => exact h
  | succ n ih => exact ih (.move .tick hw) (settled_tick hw h)

/-- If a cycle is torn at some tick, no tick finds nothing stale, whether before or after it. -/
theorem not_settled_afterTicks_of_torn (hw : Reachable runner settings w) {n : Nat}
    (h : (w.afterTicks runner n).Torn) (i : Nat) : ¬ (w.afterTicks runner i).Settled := by
  intro hsettled
  cases Nat.le_total i n with
  | inl hle =>
    obtain ⟨k, rfl⟩ := Nat.exists_eq_add_of_le hle
    rw [← afterTicks_add] at h
    exact not_settled_of_torn h (settled_afterTicks (hw.afterTicks i) hsettled k)
  | inr hle =>
    obtain ⟨k, rfl⟩ := Nat.exists_eq_add_of_le hle
    rw [← afterTicks_add] at hsettled
    exact not_settled_of_torn (torn_afterTicks (hw.afterTicks n) h k) hsettled

theorem exists_settled_or_torn (hw : Reachable runner settings w) :
    ∃ n, n ≤ w.pending ∧ ((w.afterTicks runner n).Settled ∨ (w.afterTicks runner n).Torn) := by
  induction hp : w.pending using Nat.strong_induction_on generalizing w with
  | _ p ih =>
    by_cases hsettled : w.Settled
    · exact ⟨0, Nat.zero_le p, Or.inl hsettled⟩
    by_cases htorn : w.Torn
    · exact ⟨0, Nat.zero_le p, Or.inr htorn⟩
    have hlt : (w.move runner .tick).pending < p := hp ▸ pending_tick_lt hw hsettled htorn
    obtain ⟨n, hn, h⟩ := ih _ hlt (.move .tick hw) rfl
    exact ⟨n + 1, by omega, h⟩

theorem settle_of_torn (hw : Reachable runner settings w) (hlimit : settings.maxTicks = none)
    {n : Nat} (h : (w.afterTicks runner n).Torn) (patience : Nat) :
    (w.engine.settle runner w.notebook patience).1 = .unfinished :=
  congrArg Prod.fst (settleFrom_of_not_settled_afterTicks hw hlimit
    (not_settled_afterTicks_of_torn hw h) patience 0)

theorem exists_settle_of_not_torn (hw : Reachable runner settings w)
    (hlimit : settings.maxTicks = none)
    (h : ∀ n, n ≤ 2 * w.notebook.codeIds.length → ¬ (w.afterTicks runner n).Torn) :
    ∃ ticks, ticks ≤ 2 * w.notebook.codeIds.length ∧ ∀ patience, ticks < patience →
      (w.engine.settle runner w.notebook patience).1 = .settled ticks := by
  obtain ⟨n, hn, hend⟩ := exists_settled_or_torn hw
  have hbound : n ≤ 2 * w.notebook.codeIds.length := le_trans hn (pending_le w)
  have hex : ∃ n, (w.afterTicks runner n).Settled := ⟨n, hend.resolve_right (h n hbound)⟩
  have hfirst : Nat.find hex ≤ n := Nat.find_min' hex (hend.resolve_right (h n hbound))
  refine ⟨Nat.find hex, le_trans hfirst hbound, fun patience hpatience => ?_⟩
  have hsettle := settleFrom_of_settled_afterTicks hw hlimit
    (fun i hi => Nat.find_min hex hi) (Nat.find_spec hex) hpatience 0
  rw [Nat.zero_add] at hsettle
  exact congrArg Prod.fst hsettle

theorem exists_settle_of_acyclic (hw : Reachable runner settings w)
    (hlimit : settings.maxTicks = none)
    (hacyclic : ∀ v, ¬ TransGen (Plan.graphOf w.notebook).Feeds v v) :
    ∃ ticks, ticks ≤ 2 * w.notebook.codeIds.length ∧ ∀ patience, ticks < patience →
      (w.engine.settle runner w.notebook patience).1 = .settled ticks := by
  refine exists_settle_of_not_torn hw hlimit fun n _ => ?_
  rintro ⟨u, v, hu, hjoined, hv⟩
  rw [notebook_afterTicks] at hjoined
  exact hacyclic u (hjoined.transGen (fun heq => hv (heq ▸ hu.1)) ⟨.refl, .refl⟩)

/-- Settling without a limit ends, after at most two ticks for every cell, if and only if no tick
finds a cycle torn. -/
theorem settle_ends_iff_never_torn (runner : Runner κ ν) (eventCapacity : Nat)
    (moves : List (Move κ)) :
    let w := (start ⟨none, eventCapacity⟩ : World κ ν).play runner moves
    let bound := 2 * w.notebook.codeIds.length
    ((∃ ticks, ticks ≤ bound ∧ ∀ patience, ticks < patience →
        (w.engine.settle runner w.notebook patience).1 = .settled ticks) ↔
      ∀ n, ¬ (w.afterTicks runner n).Torn) ∧
    ((∀ patience, (w.engine.settle runner w.notebook patience).1 = .unfinished) ↔
      ∃ n, n ≤ bound ∧ (w.afterTicks runner n).Torn) := by
  intro w bound
  have hw : Reachable runner ⟨none, eventCapacity⟩ w := reachable_iff_play.mpr ⟨moves, rfl⟩
  have hnever : ∀ n, (w.afterTicks runner n).Torn → ∀ patience,
      (w.engine.settle runner w.notebook patience).1 = .unfinished :=
    fun _ htorn => settle_of_torn hw rfl htorn
  constructor
  · constructor
    · rintro ⟨ticks, _, hends⟩ n htorn
      have hend := hends (ticks + 1) (by omega)
      rw [hnever n htorn] at hend
      cases hend
    · exact fun h => exists_settle_of_not_torn hw rfl fun n _ => h n
  · constructor
    · intro h
      by_contra hnone
      obtain ⟨ticks, _, hends⟩ := exists_settle_of_not_torn hw rfl
        fun n hn htorn => hnone ⟨n, hn, htorn⟩
      have hend := hends (ticks + 1) (by omega)
      rw [h] at hend
      cases hend
    · rintro ⟨n, _, htorn⟩
      exact hnever n htorn

/-- Two cycles of two cells that share the second cell, at rest until the first cell is asked to run:
the first two cells and the third keep each other stale in turn. -/
theorem two_cycles_never_settle :
    let runner : Runner Nat Nat := fun q => pairAnswer q.cell q.code q.inputs
    let w := (start Settings.standard).play runner [
      .call (.addCode (pairSource ["b"] ["a"] 1)), .call (.addCode (pairSource ["a", "c"] ["b"] 2)),
      .call (.addCode (pairSource ["b"] ["c"] 3)), .tick, .tick, .call (.requestRun ⟨0⟩)]
    ¬ ∃ patience ticks, (w.engine.settle runner w.notebook patience).1 = .settled ticks := by
  intro runner w
  have hw : Reachable runner Settings.standard w := reachable_iff_play.mpr ⟨_, rfl⟩
  have hstale : (w.engine.survey w.notebook).stale = [⟨0⟩, ⟨1⟩] := by decide +kernel
  have h01 : (Plan.graphOf w.notebook).Feeds ⟨0⟩ ⟨1⟩ := by decide +kernel
  have h10 : (Plan.graphOf w.notebook).Feeds ⟨1⟩ ⟨0⟩ := by decide +kernel
  have h12 : (Plan.graphOf w.notebook).Feeds ⟨1⟩ ⟨2⟩ := by decide +kernel
  have h21 : (Plan.graphOf w.notebook).Feeds ⟨2⟩ ⟨1⟩ := by decide +kernel
  have htorn : w.Torn := by
    refine ⟨⟨0⟩, ⟨2⟩, ⟨?_, fun z hz _ => ?_⟩, ⟨?_, ?_⟩, ?_⟩
    · rw [hstale]
      decide
    · rw [hstale] at hz
      rcases List.mem_pair.mp hz with rfl | rfl
      · exact .refl
      · exact .single h01
    · exact .head h01 (.single h12)
    · exact .head h21 (.single h10)
    · rw [hstale]
      decide
  rintro ⟨patience, ticks, hends⟩
  rw [settle_of_torn (n := 0) hw rfl htorn] at hends
  cases hends

end World

end Recalc
