import Recalc.Proofs.Plan.Entries

/-!
# Which cells can run

The fault of a cell is settled by its source, the exports of the other cells, and whether a walk along
the arcs leads from the cell back to it (`classification`). It can be read off any part of the
notebook that holds the cell, the cells that feed it, and the cells it feeds that feed it
(`faultAt?_eq_of_filter`).
-/

namespace Recalc

open Relation

namespace Cell

variable {κ : Type}

def Exports (c : Cell κ) (name : Name) : Prop :=
  ∃ p, c.content.program? = some p ∧ ∃ e ∈ p.exports, e.output = name

def Imports (c : Cell κ) (name : Name) : Prop :=
  ∃ p, c.content.program? = some p ∧ ∃ i ∈ p.imports, i.input = name

theorem exports_interface_iff {c : Cell κ} {name : Name} :
    c.interface.Exports name ↔ c.Exports name := by
  rw [Exports, interface, Interface.Exports]
  cases c.content.program? <;> simp

theorem imports_interface_iff {c : Cell κ} {name : Name} :
    (∃ i ∈ c.interface.imports, i.input = name) ↔ c.Imports name := by
  rw [Imports, interface]
  cases c.content.program? <;> simp

end Cell

/-- A name that a cell exports and another cell exports too. The name `default` counts only where it
is imported as well. -/
def Notebook.IsRival {κ : Type} (nb : Notebook κ) (c : Cell κ) (name : Name) : Prop :=
  c.Exports name ∧ (∃ d ∈ nb.codeCells, d.id ≠ c.id ∧ d.Exports name) ∧
    (name = Name.default → c.Imports name)

namespace Plan

variable {κ : Type}

def HasFault (plan : Plan κ) (id : CellId) (fault : Fault) : Prop :=
  ∃ f ∈ plan.faults, f.node.id = id ∧ f.fault = fault

/-- The fault of a cell with the given source at its place among the cells of a notebook. -/
def faultAt? (nb : Notebook κ) (id : CellId) : Compilation κ → Option Fault
  | .error message => some (.compile message)
  | .ok p => fault? (graphOf nb) (graphOf nb).cycles id p

section Fault

variable {g : Graph} {cycles : List (List CellId)} {id : CellId} {p : Program κ}

theorem fault?_eq_topLevelReturn_iff :
    fault? g cycles id p = some .topLevelReturn ↔ p.topLevelReturn = true := by
  rw [fault?]
  split
  · next ht => simp [ht]
  · next ht =>
    dsimp only
    split
    · simp [ht]
    · split <;> simp [ht]

theorem fault?_eq_multipleDefinitions_iff {names : List Name} :
    fault? g cycles id p = some (.multipleDefinitions names) ↔
      p.topLevelReturn = false ∧ names ≠ [] ∧ g.conflicts id = names := by
  rw [fault?]
  split
  · next ht => simp [ht]
  · next ht =>
    dsimp only
    split
    · next hn =>
      simp only [Option.some.injEq, Fault.multipleDefinitions.injEq, ht, true_and]
      constructor
      · rintro rfl
        exact ⟨hn, rfl⟩
      · exact And.right
    · next hn =>
      have hnil : g.conflicts id = [] := not_not.mp hn
      rw [hnil]
      constructor
      · intro h
        split at h <;> cases h
      · rintro ⟨_, hne, rfl⟩
        exact absurd rfl hne

theorem fault?_eq_cyclicDependency_iff {paths : List (List Name)} :
    fault? g cycles id p = some (.cyclicDependency paths) ↔
      p.topLevelReturn = false ∧ g.conflicts id = [] ∧ paths ≠ [] ∧
        (cycles.filter fun cycle => cycle.contains id).map (g.cycleNames id) = paths := by
  rw [fault?]
  split
  · next ht => simp [ht]
  · next ht =>
    dsimp only
    split
    · next hn => simp [hn]
    · next hn =>
      have hnil : g.conflicts id = [] := not_not.mp hn
      simp only [hnil, ht, true_and]
      split
      · next hpaths =>
        rw [Option.some.injEq, Fault.cyclicDependency.injEq]
        constructor
        · rintro rfl
          exact ⟨hpaths, rfl⟩
        · exact And.right
      · next hpaths =>
        rw [not_not.mp hpaths]
        constructor
        · rintro ⟨⟩
        · rintro ⟨hne, rfl⟩
          exact absurd rfl hne

theorem exists_fault?_eq_cyclicDependency_iff :
    (∃ paths, fault? g cycles id p = some (.cyclicDependency paths)) ↔
      p.topLevelReturn = false ∧ g.conflicts id = [] ∧ ∃ cycle ∈ cycles, id ∈ cycle := by
  simp only [fault?_eq_cyclicDependency_iff, exists_and_left, exists_eq_right', ne_eq,
    List.map_eq_nil_iff, List.filter_eq_nil_iff, List.contains_iff_mem, not_forall, not_not,
    exists_prop]

theorem fault?_restrict {cells : List Interface} {keep : CellId → Bool} (hid : keep id = true)
    (hfeeds : ∀ u, (Graph.ofInterfaces cells).Feeds u id → keep u = true)
    (hjoined : ∀ u, (Graph.ofInterfaces cells).Joined id u → keep u = true) :
    fault? ((Graph.ofInterfaces cells).restrict keep)
        ((Graph.ofInterfaces cells).restrict keep).cycles id p =
      fault? (Graph.ofInterfaces cells) (Graph.ofInterfaces cells).cycles id p := by
  have hclosed := Graph.isClosed_ofInterfaces cells
  have hpaths : ((Graph.ofInterfaces cells).cycles.filter fun cycle => cycle.contains id).map
      (((Graph.ofInterfaces cells).restrict keep).cycleNames id) =
      ((Graph.ofInterfaces cells).cycles.filter fun cycle => cycle.contains id).map
        ((Graph.ofInterfaces cells).cycleNames id) := by
    apply List.map_congr_left
    intro cycle hcycle
    obtain ⟨hc, hmem⟩ := List.mem_filter.mp hcycle
    exact Graph.cycleNames_restrict fun u hu =>
      hjoined u (Graph.joined_of_mem_cycles hclosed hc (by simpa using hmem) hu)
  rw [fault?, fault?, Graph.conflicts_restrict hid hfeeds,
    Graph.filter_cycles_restrict hclosed (Graph.nodup_ids_ofInterfaces cells) hjoined, hpaths]

end Fault

variable {nb : Notebook κ}

theorem restrict_graphOf (nb : Notebook κ) (keep : CellId → Bool) :
    (graphOf nb).restrict keep =
      Graph.ofInterfaces ((nb.codeCells.filter fun c => keep c.id).map Cell.interface) := by
  rw [graphOf, ← Graph.ofInterfaces_filter, List.filter_map]
  congr 2
  exact List.filter_congr fun c _ => by rw [Function.comp_apply, Cell.interface_id]

/-- Two notebooks that hold the same list of kept cells give a cell the same fault, if both keep the
cell with all that its fault depends on. -/
theorem faultAt?_eq_of_filter {past : Notebook κ} (keep : CellId → Bool) {id : CellId}
    (hcells : (nb.codeCells.filter fun c => keep c.id) = past.codeCells.filter fun c => keep c.id)
    (hid : keep id = true)
    (hfeeds : ∀ u, (graphOf nb).Feeds u id → keep u = true)
    (hjoined : ∀ u, (graphOf nb).Joined id u → keep u = true)
    (hfeeds' : ∀ u, (graphOf past).Feeds u id → keep u = true)
    (hjoined' : ∀ u, (graphOf past).Joined id u → keep u = true) (source : Compilation κ) :
    faultAt? nb id source = faultAt? past id source := by
  have hsame : (graphOf nb).restrict keep = (graphOf past).restrict keep := by
    rw [restrict_graphOf, restrict_graphOf, hcells]
  cases source with
  | error message => rfl
  | ok p =>
    have hnb := fault?_restrict (p := p) hid hfeeds hjoined
    have hpast := fault?_restrict (p := p) hid hfeeds' hjoined'
    rw [faultAt?, faultAt?, graphOf, graphOf, ← hnb, ← hpast]
    exact congrArg (fun g : Graph => fault? g g.cycles id p) hsame

theorem inputs_eq_of_filter {past : Notebook κ} (keep : CellId → Bool) {id : CellId}
    (hcells : (nb.codeCells.filter fun c => keep c.id) = past.codeCells.filter fun c => keep c.id)
    (hid : keep id = true) (hfeeds : ∀ u, (graphOf nb).Feeds u id → keep u = true)
    (hfeeds' : ∀ u, (graphOf past).Feeds u id → keep u = true) :
    (graphOf nb).inputs id = (graphOf past).inputs id := by
  rw [← Graph.inputs_restrict_of_feeds hid hfeeds, ← Graph.inputs_restrict_of_feeds hid hfeeds',
    restrict_graphOf, restrict_graphOf, hcells]

theorem feeds_iff_of_filter {past : Notebook κ} (keep : CellId → Bool) {u v : CellId}
    (hcells : (nb.codeCells.filter fun c => keep c.id) = past.codeCells.filter fun c => keep c.id)
    (hu : keep u = true) (hv : keep v = true) :
    (graphOf nb).Feeds u v ↔ (graphOf past).Feeds u v := by
  have hkept : ∀ g : Graph, (g.restrict keep).Feeds u v ↔ g.Feeds u v := fun g => by
    rw [Graph.feeds_restrict_iff, and_iff_left ⟨hu, hv⟩]
  rw [← hkept (graphOf nb), ← hkept (graphOf past), restrict_graphOf, restrict_graphOf, hcells]

theorem entryAt_eq (nb : Notebook κ) (c : Cell κ) (source : Compilation κ) :
    (∃ fault, faultAt? nb c.id source = some fault ∧
      entryAt nb c source = .faulty ⟨(graphOf nb).node c.id, fault, c.requested⟩) ∨
    (∃ p, source = .ok p ∧ faultAt? nb c.id source = none ∧
      entryAt nb c source =
        .runnable ⟨(graphOf nb).node c.id, p.code, p.resultName, c.requested⟩) := by
  cases source with
  | error message => exact Or.inl ⟨_, rfl, rfl⟩
  | ok p =>
    rw [entryAt, entryOf, faultAt?]
    split
    · next fault hfault => exact Or.inl ⟨fault, hfault, rfl⟩
    · next hnone => exact Or.inr ⟨p, rfl, hnone, rfl⟩

section Classification

variable {c : Cell κ} {source : Compilation κ}

theorem mem_faults_draft_iff (hV : nb.Valid) {f : Faulty} :
    f ∈ (draft nb).faults ↔ ∃ c ∈ nb.codeCells, ∃ source, c.content = .code source ∧
      faultAt? nb c.id source = some f.fault ∧
        f = ⟨(graphOf nb).node c.id, f.fault, c.requested⟩ := by
  rw [mem_faults_iff, mem_entries_iff hV]
  refine exists_congr fun c => and_congr_right fun _ => exists_congr fun source =>
    and_congr_right fun _ => ?_
  rcases entryAt_eq nb c source with ⟨fault, hfault, he⟩ | ⟨p, _, hnone, he⟩
  · rw [he, hfault, Entry.faulty.injEq]
    constructor
    · rintro rfl
      exact ⟨rfl, rfl⟩
    · rintro ⟨hsome, hf⟩
      rw [hf, Option.some.inj hsome]
  · rw [he, hnone]
    constructor
    · rintro ⟨⟩
    · rintro ⟨⟨⟩, _⟩

theorem mem_runnables_draft_iff (hV : nb.Valid) {r : Runnable κ} :
    r ∈ (draft nb).runnables ↔ ∃ c ∈ nb.codeCells, ∃ p, c.content = .code (.ok p) ∧
      faultAt? nb c.id (.ok p) = none ∧
        r = ⟨(graphOf nb).node c.id, p.code, p.resultName, c.requested⟩ := by
  rw [mem_runnables_iff, mem_entries_iff hV]
  refine exists_congr fun c => and_congr_right fun _ => ?_
  constructor
  · rintro ⟨source, hs, hr⟩
    rcases entryAt_eq nb c source with ⟨fault, _, he⟩ | ⟨p, rfl, hnone, he⟩
    · rw [he] at hr
      cases hr
    · rw [he, Entry.runnable.injEq] at hr
      exact ⟨p, hs, hnone, hr⟩
  · rintro ⟨p, hs, hnone, hr⟩
    refine ⟨.ok p, hs, ?_⟩
    rcases entryAt_eq nb c (.ok p) with ⟨fault, hfault, _⟩ | ⟨q, hq, _, he⟩
    · rw [hnone] at hfault
      cases hfault
    · cases hq
      rw [he, hr]

theorem hasFault_iff (hV : nb.Valid) (hc : c ∈ nb.codeCells) (hs : c.content = .code source)
    {fault : Fault} : (draft nb).HasFault c.id fault ↔ faultAt? nb c.id source = some fault := by
  constructor
  · rintro ⟨f, hf, hid, rfl⟩
    obtain ⟨d, hd, source', hs', hfault, hfd⟩ := (mem_faults_draft_iff hV).mp hf
    have hdc : d = c := by
      refine hV.eq_of_id_eq hd hc ?_
      rw [← hid, hfd]
      rfl
    subst hdc
    rw [hs] at hs'
    cases hs'
    exact hfault
  · intro hfault
    exact ⟨⟨(graphOf nb).node c.id, fault, c.requested⟩,
      (mem_faults_draft_iff hV).mpr ⟨c, hc, source, hs, hfault, rfl⟩, rfl, rfl⟩

theorem canRun_iff (hV : nb.Valid) (hc : c ∈ nb.codeCells) (hs : c.content = .code source) :
    (draft nb).CanRun c.id ↔ faultAt? nb c.id source = none := by
  constructor
  · rintro ⟨r, hr, hid⟩
    obtain ⟨d, hd, p, hs', hnone, hrd⟩ := (mem_runnables_draft_iff hV).mp hr
    have hdc : d = c := by
      refine hV.eq_of_id_eq hd hc ?_
      rw [← hid, hrd]
      rfl
    subst hdc
    rw [hs] at hs'
    cases hs'
    exact hnone
  · intro hnone
    cases source with
    | error message => cases hnone
    | ok p => exact ⟨_, (mem_runnables_draft_iff hV).mpr ⟨c, hc, p, hs, hnone, rfl⟩, rfl⟩

theorem mem_inputs_of_imports {d : Cell κ} (hc : c ∈ nb.codeCells) (hd : d ∈ nb.codeCells)
    {name : Name} (himports : c.Imports name) (hexp : d.Exports name) :
    (d.id, Link.same name) ∈ (graphOf nb).inputs c.id := by
  obtain ⟨e, he, rfl⟩ := Cell.exports_interface_iff.mpr hexp
  obtain ⟨i, hi, hie⟩ := Cell.imports_interface_iff.mpr himports
  refine Graph.mem_inputs_iff.mpr (Graph.mem_arcs_ofInterfaces_iff.mpr
    ⟨d.interface, List.mem_map_of_mem hd, e, he, c.interface, List.mem_map_of_mem hc,
      Or.inl ⟨i, hi, hie, ?_⟩⟩)
  rw [Cell.interface_id, Cell.interface_id]

theorem mem_conflicts_graphOf_iff (hV : nb.Valid) (hc : c ∈ nb.codeCells) {name : Name} :
    name ∈ (graphOf nb).conflicts c.id ↔ nb.IsRival c name := by
  have hself : ∀ d ∈ nb.codeCells, d.interface.id = c.id → d = c := fun d hd hid =>
    hV.eq_of_id_eq hd hc (by rwa [Cell.interface_id] at hid)
  rw [graphOf, Graph.mem_conflicts_ofInterfaces_iff, Notebook.IsRival]
  simp only [List.mem_map, exists_exists_and_eq_and, Cell.exports_interface_iff,
    Cell.imports_interface_iff]
  refine and_congr ?_ (and_congr ?_ (imp_congr_right fun _ => ?_))
  · constructor
    · rintro ⟨d, hd, hid, hexp⟩
      exact hself d hd hid ▸ hexp
    · exact fun hexp => ⟨c, hc, c.interface_id, hexp⟩
  · simp only [Cell.interface_id]
  · constructor
    · rintro ⟨d, hd, hid, himp⟩
      exact hself d hd hid ▸ himp
    · exact fun himp => ⟨c, hc, c.interface_id, himp⟩

theorem conflicts_eq_nil_iff (hV : nb.Valid) (hc : c ∈ nb.codeCells) :
    (graphOf nb).conflicts c.id = [] ↔ ∀ name, ¬ nb.IsRival c name := by
  simp only [List.eq_nil_iff_forall_not_mem, mem_conflicts_graphOf_iff hV hc]

theorem hasFault_compile_iff (hV : nb.Valid) (hc : c ∈ nb.codeCells)
    (hs : c.content = .code source) {message : String} :
    (draft nb).HasFault c.id (.compile message) ↔ source = .error message := by
  rw [hasFault_iff hV hc hs]
  cases source with
  | error m => simp [faultAt?]
  | ok p =>
    rw [faultAt?, fault?]
    constructor
    · intro h
      split at h
      · cases h
      · dsimp only at h
        split at h
        · cases h
        · split at h <;> cases h
    · rintro ⟨⟩

theorem hasFault_topLevelReturn_iff (hV : nb.Valid) (hc : c ∈ nb.codeCells)
    (hs : c.content = .code source) :
    (draft nb).HasFault c.id .topLevelReturn ↔
      ∃ p, source = .ok p ∧ p.topLevelReturn = true := by
  rw [hasFault_iff hV hc hs]
  cases source with
  | error message => simp [faultAt?]
  | ok p => simp [faultAt?, fault?_eq_topLevelReturn_iff]

theorem hasFault_multipleDefinitions_iff (hV : nb.Valid) (hc : c ∈ nb.codeCells)
    (hs : c.content = .code source) {names : List Name} :
    (draft nb).HasFault c.id (.multipleDefinitions names) ↔
      ∃ p, source = .ok p ∧ p.topLevelReturn = false ∧ names ≠ [] ∧
        names.Pairwise (fun x y => x < y) ∧ ∀ name, name ∈ names ↔ nb.IsRival c name := by
  rw [hasFault_iff hV hc hs]
  cases source with
  | error message => simp [faultAt?]
  | ok p =>
    rw [faultAt?, fault?_eq_multipleDefinitions_iff]
    constructor
    · rintro ⟨ht, hne, rfl⟩
      exact ⟨p, rfl, ht, hne, Graph.pairwise_conflicts _ _,
        fun name => mem_conflicts_graphOf_iff hV hc⟩
    · rintro ⟨q, hq, ht, hne, hsorted, hmem⟩
      cases hq
      refine ⟨ht, hne, ?_⟩
      refine (Graph.pairwise_conflicts _ _).sortedLT.eq_of_mem_iff hsorted.sortedLT fun name => ?_
      rw [hmem, mem_conflicts_graphOf_iff hV hc]

theorem hasFault_cyclicDependency_iff (hV : nb.Valid) (hc : c ∈ nb.codeCells)
    (hs : c.content = .code source) :
    (∃ paths, (draft nb).HasFault c.id (.cyclicDependency paths)) ↔
      ∃ p, source = .ok p ∧ p.topLevelReturn = false ∧ (∀ name, ¬ nb.IsRival c name) ∧
        TransGen (graphOf nb).Feeds c.id c.id := by
  simp only [hasFault_iff hV hc hs]
  cases source with
  | error message => simp [faultAt?]
  | ok p =>
    simp only [faultAt?, exists_fault?_eq_cyclicDependency_iff, conflicts_eq_nil_iff hV hc,
      Graph.exists_mem_cycles_iff (isClosed_graphOf nb), Except.ok.injEq, exists_eq_left']

theorem canRun_iff_of_source (hV : nb.Valid) (hc : c ∈ nb.codeCells)
    (hs : c.content = .code source) :
    (draft nb).CanRun c.id ↔
      ∃ p, source = .ok p ∧ p.topLevelReturn = false ∧ (∀ name, ¬ nb.IsRival c name) ∧
        ¬ TransGen (graphOf nb).Feeds c.id c.id := by
  rw [canRun_iff hV hc hs]
  cases source with
  | error message => simp [faultAt?]
  | ok p =>
    rw [faultAt?, fault?_eq_none_iff, conflicts_eq_nil_iff hV hc,
      ← Graph.exists_mem_cycles_iff (isClosed_graphOf nb)]
    simp

/-- What a plan says of a code cell, from its source, the exports of the other cells, and the walks
that lead back to it. -/
structure Classified (nb : Notebook κ) (plan : Plan κ) (c : Cell κ) (source : Compilation κ) :
    Prop where
  compile : ∀ message, plan.HasFault c.id (.compile message) ↔ source = .error message
  topLevelReturn : plan.HasFault c.id .topLevelReturn ↔
    ∃ p, source = .ok p ∧ p.topLevelReturn = true
  multipleDefinitions : ∀ names, plan.HasFault c.id (.multipleDefinitions names) ↔
    ∃ p, source = .ok p ∧ p.topLevelReturn = false ∧ names ≠ [] ∧
      names.Pairwise (fun x y => x < y) ∧ ∀ name, name ∈ names ↔ nb.IsRival c name
  cyclicDependency : (∃ paths, plan.HasFault c.id (.cyclicDependency paths)) ↔
    ∃ p, source = .ok p ∧ p.topLevelReturn = false ∧ (∀ name, ¬ nb.IsRival c name) ∧
      TransGen plan.graph.Feeds c.id c.id
  canRun : plan.CanRun c.id ↔
    ∃ p, source = .ok p ∧ p.topLevelReturn = false ∧ (∀ name, ¬ nb.IsRival c name) ∧
      ¬ TransGen plan.graph.Feeds c.id c.id

theorem classified (hV : nb.Valid) (hc : c ∈ nb.codeCells) (hs : c.content = .code source) :
    Classified nb (draft nb) c source where
  compile _ := hasFault_compile_iff hV hc hs
  topLevelReturn := hasFault_topLevelReturn_iff hV hc hs
  multipleDefinitions _ := hasFault_multipleDefinitions_iff hV hc hs
  cyclicDependency := hasFault_cyclicDependency_iff hV hc hs
  canRun := canRun_iff_of_source hV hc hs

theorem not_exports_of_canRun (hV : nb.Valid) (hc : c ∈ nb.codeCells)
    (hrun : (draft nb).CanRun c.id) {name : Name} (hname : name ≠ Name.default)
    (hexp : c.Exports name) {d : Cell κ} (hd : d ∈ nb.codeCells) (hne : d.id ≠ c.id) :
    ¬ d.Exports name := by
  obtain ⟨source, hs⟩ := exists_source hc
  obtain ⟨_, _, _, hrival, _⟩ := (canRun_iff_of_source hV hc hs).mp hrun
  exact fun hdexp => hrival name ⟨hexp, ⟨d, hd, hne, hdexp⟩, fun h => absurd h hname⟩

theorem eq_of_exports_of_canRun (hV : nb.Valid) (hc : c ∈ nb.codeCells)
    (hrun : (draft nb).CanRun c.id) {name : Name} (hname : name ≠ Name.default)
    (hexp : c.Exports name) {d : Cell κ} (hd : d ∈ nb.codeCells) (hdexp : d.Exports name) :
    d = c := by
  by_contra hne
  exact not_exports_of_canRun hV hc hrun hname hexp hd
    (fun hid => hne (hV.eq_of_id_eq hd hc hid)) hdexp

/-- Every code cell of a notebook is either listed as one that can run or as a faulty one, and never
twice; the order of the plan lists each once; and what decides is as `Classified` says. -/
theorem classification (calls : List (Call κ)) :
    let nb := (Notebook.empty : Notebook κ).replay calls
    let plan := draft nb
    nb.codeIds.Nodup ∧ plan.order.Perm nb.codeIds ∧
      (plan.runnables.map (fun r => r.node.id) ++ plan.faults.map fun f => f.node.id).Perm
        nb.codeIds ∧
      (∀ c ∈ nb.cells, c.isCode = false → c.id ∉ plan.order) ∧
      (∀ c ∈ nb.codeCells, ∀ source, c.content = .code source → Classified nb plan c source) ∧
      (∀ id, plan.CanRun id → ¬ TransGen plan.graph.Feeds id id) ∧
      ∀ c ∈ nb.codeCells, plan.CanRun c.id → ∀ name, name ≠ Name.default → c.Exports name →
        ∀ d ∈ nb.codeCells, d.id ≠ c.id → ¬ d.Exports name := by
  intro nb plan
  have hV : nb.Valid := Notebook.valid_empty.replay calls
  refine ⟨hV.nodup_codeIds, order_draft_perm hV,
    (runnables_append_faults_perm plan).trans (order_draft_perm hV), ?_,
    fun c hc source hs => classified hV hc hs, fun id hrun => (sound_draft hV).acyclic_of_canRun hrun,
    fun c hc hrun name hname hexp d hd hne => not_exports_of_canRun hV hc hrun hname hexp hd hne⟩
  intro c hc htext hmem
  obtain ⟨d, hd, hid⟩ := List.mem_map.mp ((mem_order_draft_iff hV).mp hmem)
  obtain ⟨hd, hcode⟩ := Notebook.mem_codeCells_iff.mp hd
  have hdc : d = c := List.inj_on_of_nodup_map hV.nodup hd hc hid
  rw [hdc, htext] at hcode
  cases hcode

end Classification

end Plan

end Recalc
