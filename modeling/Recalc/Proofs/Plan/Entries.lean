import Recalc.Plan
import Recalc.Proofs.Graph.Conflict
import Recalc.Proofs.Graph.Cycle
import Recalc.Proofs.Notebook

/-!
# The entries of a plan

A plan has one entry for every code cell, in the order of the graph, and an entry carries the arcs and
the request of its cell. No entry that can run lies on a cycle. `Plan.Sound` collects what the rest of
the engine relies on; it speaks of the plan alone.
-/

namespace Recalc

open Relation

namespace Plan

variable {κ : Type}

/-- The entries follow the order of the graph, with the arcs of the graph, and cells on a cycle
cannot run. -/
structure Sound (plan : Plan κ) : Prop where
  closed : plan.graph.IsClosed
  order_eq : plan.order = plan.graph.order
  node_eq : ∀ e ∈ plan.entries, e.node = plan.graph.node e.id
  acyclic : ∀ r ∈ plan.runnables, ¬ TransGen plan.graph.Feeds r.node.id r.node.id

def CanRun (plan : Plan κ) (id : CellId) : Prop := ∃ r ∈ plan.runnables, r.node.id = id

section Sound

variable {plan : Plan κ}

theorem Sound.nodup_order (h : plan.Sound) : plan.order.Nodup :=
  h.order_eq ▸ Graph.nodup_order h.closed

theorem mem_order_iff {id : CellId} : id ∈ plan.order ↔ ∃ e ∈ plan.entries, e.id = id :=
  List.mem_map

theorem Sound.eq_of_id_eq (h : plan.Sound) {e e' : Entry κ} (he : e ∈ plan.entries)
    (he' : e' ∈ plan.entries) (hid : e.id = e'.id) : e = e' :=
  List.inj_on_of_nodup_map h.nodup_order he he' hid

theorem Sound.find?_eq_some_iff (h : plan.Sound) {e : Entry κ} {id : CellId} :
    plan.find? id = some e ↔ e ∈ plan.entries ∧ e.id = id := by
  constructor
  · intro hfind
    exact ⟨List.mem_of_find?_eq_some hfind, by simpa using List.find?_some hfind⟩
  · rintro ⟨he, rfl⟩
    cases hfind : plan.find? e.id with
    | none =>
      have hne := List.find?_eq_none.mp hfind e he
      simp at hne
    | some e' =>
      have hid : e'.id = e.id := by simpa using List.find?_some hfind
      rw [h.eq_of_id_eq (List.mem_of_find?_eq_some hfind) he hid]

theorem Sound.isSome_runnable?_iff (h : plan.Sound) {id : CellId} :
    (plan.runnable? id).isSome ↔ plan.CanRun id := by
  rw [runnable?]
  constructor
  · intro hsome
    obtain ⟨r, hr⟩ := Option.isSome_iff_exists.mp hsome
    obtain ⟨e, hfind, he⟩ := Option.bind_eq_some_iff.mp hr
    obtain ⟨hmem, hid⟩ := h.find?_eq_some_iff.mp hfind
    cases e with
    | runnable r' => exact ⟨r', mem_runnables_iff.mpr hmem, hid⟩
    | faulty f => cases he
  · rintro ⟨r, hr, hid⟩
    rw [h.find?_eq_some_iff.mpr ⟨mem_runnables_iff.mp hr, hid⟩]
    rfl

theorem Sound.acyclic_of_canRun (h : plan.Sound) {id : CellId} (hrun : plan.CanRun id) :
    ¬ TransGen plan.graph.Feeds id id := by
  obtain ⟨r, hr, rfl⟩ := hrun
  exact h.acyclic r hr

theorem canRun_or_faulty {id : CellId} (hid : id ∈ plan.order) :
    plan.CanRun id ∨ ∃ f ∈ plan.faults, f.node.id = id := by
  obtain ⟨e, he, rfl⟩ := List.mem_map.mp hid
  cases e with
  | runnable r => exact Or.inl ⟨r, mem_runnables_iff.mpr he, rfl⟩
  | faulty f => exact Or.inr ⟨f, mem_faults_iff.mpr he, rfl⟩

theorem Sound.feeds_mem (h : plan.Sound) {u v : CellId} (hf : plan.graph.Feeds u v) :
    u ∈ plan.order ∧ v ∈ plan.order := by
  rw [h.order_eq, Graph.mem_order_iff h.closed, Graph.mem_order_iff h.closed]
  exact h.closed u v hf

theorem Sound.mem_inputIds_iff (h : plan.Sound) {e : Entry κ} (he : e ∈ plan.entries)
    {u : CellId} : u ∈ e.node.inputIds ↔ plan.graph.Feeds u e.id := by
  rw [h.node_eq e he]
  exact Graph.mem_sources_iff

theorem Sound.inputIds_eq (h : plan.Sound) {e : Entry κ} (he : e ∈ plan.entries) :
    e.node.inputIds = plan.graph.sources e.id := by
  rw [h.node_eq e he]
  rfl

theorem Sound.mem_before_of_acyclic (h : plan.Sound) {before after : List (Entry κ)}
    {e : Entry κ} (hplan : plan.entries = before ++ e :: after)
    (hacyclic : ¬ TransGen plan.graph.Feeds e.id e.id) {u : CellId}
    (hu : TransGen plan.graph.Feeds u e.id) : ∃ x ∈ before, x.id = u := by
  have horder : plan.graph.order = before.map Entry.id ++ e.id :: after.map Entry.id := by
    rw [← h.order_eq, order, hplan, List.map_append, List.map_cons]
  exact List.mem_map.mp (Graph.mem_of_ancestor h.closed horder hacyclic hu)

theorem Sound.mem_before (h : plan.Sound) {before after : List (Entry κ)} {r : Runnable κ}
    (hplan : plan.entries = before ++ .runnable r :: after) {u : CellId}
    (hu : TransGen plan.graph.Feeds u r.node.id) : ∃ e ∈ before, e.id = u :=
  h.mem_before_of_acyclic hplan (h.acyclic r (mem_runnables_iff.mpr (hplan ▸ by simp))) hu

theorem runnables_append_faults_perm (plan : Plan κ) :
    (plan.runnables.map (fun r => r.node.id) ++ plan.faults.map fun f => f.node.id).Perm
      plan.order := by
  rw [runnables, faults, order]
  induction plan.entries with
  | nil => exact .nil
  | cons e rest ih =>
    cases e with
    | runnable r => exact ih.cons _
    | faulty f => exact List.perm_middle.trans (ih.cons _)

end Sound

variable {nb : Notebook κ}

theorem isClosed_graphOf (nb : Notebook κ) : (graphOf nb).IsClosed :=
  Graph.isClosed_ofInterfaces _

theorem ids_graphOf (hV : nb.Valid) : (graphOf nb).ids = nb.codeIds := by
  have hmap : (nb.codeCells.map Cell.interface).map Interface.id = nb.codeIds := by
    rw [List.map_map]
    exact List.map_congr_left fun c _ => c.interface_id
  rw [graphOf, Graph.ofInterfaces, hmap]
  exact eraseDups_of_nodup hV.nodup_codeIds

theorem mem_order_graphOf_iff (hV : nb.Valid) {id : CellId} :
    id ∈ (graphOf nb).order ↔ id ∈ nb.codeIds := by
  rw [Graph.mem_order_iff (isClosed_graphOf nb), ids_graphOf hV]

theorem exists_source {c : Cell κ} (hc : c ∈ nb.codeCells) :
    ∃ source, c.content = .code source := by
  have hcode := (Notebook.mem_codeCells_iff.mp hc).2
  rw [Cell.isCode] at hcode
  cases hcontent : c.content with
  | text body =>
    rw [hcontent] at hcode
    cases hcode
  | code source => exact ⟨source, rfl⟩

def entryAt (nb : Notebook κ) (c : Cell κ) (source : Compilation κ) : Entry κ :=
  entryOf (graphOf nb) (graphOf nb).cycles c.id c.requested source

@[simp] theorem id_entryAt (nb : Notebook κ) (c : Cell κ) (source : Compilation κ) :
    (entryAt nb c source).id = c.id :=
  id_entryOf _ _ _ _ _

@[simp] theorem requested_entryAt (nb : Notebook κ) (c : Cell κ) (source : Compilation κ) :
    (entryAt nb c source).requested = c.requested := by
  cases source with
  | error message => rfl
  | ok p =>
    rw [entryAt, entryOf]
    split <;> rfl

@[simp] theorem node_entryAt (nb : Notebook κ) (c : Cell κ) (source : Compilation κ) :
    (entryAt nb c source).node = (graphOf nb).node c.id := by
  cases source with
  | error message => rfl
  | ok p =>
    rw [entryAt, entryOf]
    split <;> rfl

def entryOf? (nb : Notebook κ) (id : CellId) : Option (Entry κ) :=
  (nb.cell? id).bind fun c =>
    c.content.source?.map (entryOf (graphOf nb) (graphOf nb).cycles id c.requested)

theorem entries_draft (nb : Notebook κ) :
    (draft nb).entries = (graphOf nb).order.filterMap (entryOf? nb) := rfl

theorem entryOf?_eq_some (hV : nb.Valid) {c : Cell κ} (hc : c ∈ nb.codeCells)
    {source : Compilation κ} (hs : c.content = .code source) :
    entryOf? nb c.id = some (entryAt nb c source) := by
  rw [entryOf?, hV.cell?_eq_some (Notebook.mem_codeCells_iff.mp hc).1, Option.bind_some, hs]
  rfl

theorem mem_entries_iff (hV : nb.Valid) {e : Entry κ} :
    e ∈ (draft nb).entries ↔
      ∃ c ∈ nb.codeCells, ∃ source, c.content = .code source ∧ e = entryAt nb c source := by
  rw [entries_draft, List.mem_filterMap]
  constructor
  · rintro ⟨id, hid, he⟩
    obtain ⟨c, hc, rfl⟩ := List.mem_map.mp ((mem_order_graphOf_iff hV).mp hid)
    obtain ⟨source, hs⟩ := exists_source hc
    rw [entryOf?_eq_some hV hc hs] at he
    exact ⟨c, hc, source, hs, (Option.some.inj he).symm⟩
  · rintro ⟨c, hc, source, hs, rfl⟩
    exact ⟨c.id, (mem_order_graphOf_iff hV).mpr (List.mem_map_of_mem hc), entryOf?_eq_some hV hc hs⟩

theorem order_draft (hV : nb.Valid) : (draft nb).order = (graphOf nb).order := by
  have hmap : ∀ ids : List CellId, (∀ id ∈ ids, id ∈ nb.codeIds) →
      (ids.filterMap (entryOf? nb)).map Entry.id = ids := by
    intro ids hids
    induction ids with
    | nil => rfl
    | cons id rest ih =>
      obtain ⟨c, hc, rfl⟩ := List.mem_map.mp (hids id List.mem_cons_self)
      obtain ⟨source, hs⟩ := exists_source hc
      rw [List.filterMap_cons_some (entryOf?_eq_some hV hc hs), List.map_cons, id_entryAt,
        ih fun id hid => hids id (List.mem_cons_of_mem _ hid)]
  rw [order, entries_draft]
  exact hmap _ fun id hid => (mem_order_graphOf_iff hV).mp hid

theorem mem_order_draft_iff (hV : nb.Valid) {id : CellId} :
    id ∈ (draft nb).order ↔ id ∈ nb.codeIds := by
  rw [order_draft hV, mem_order_graphOf_iff hV]

theorem order_draft_perm (hV : nb.Valid) : (draft nb).order.Perm nb.codeIds := by
  rw [order_draft hV, ← ids_graphOf hV]
  exact Graph.order_perm (isClosed_graphOf nb) (ids_graphOf hV ▸ hV.nodup_codeIds)

theorem fault?_eq_none_iff {g : Graph} {cycles : List (List CellId)} {id : CellId}
    {p : Program κ} :
    fault? g cycles id p = none ↔
      p.topLevelReturn = false ∧ g.conflicts id = [] ∧ ∀ cycle ∈ cycles, id ∉ cycle := by
  rw [fault?]
  split
  · next ht => simp [ht]
  · next ht =>
    dsimp only
    split
    · next hn => simp [hn]
    · next hn =>
      rw [ite_eq_right_iff]
      simp_all [List.filter_eq_nil_iff]

theorem sound_draft (hV : nb.Valid) : (draft nb).Sound where
  closed := isClosed_graphOf nb
  order_eq := order_draft hV
  node_eq e he := by
    obtain ⟨c, _, source, _, rfl⟩ := (mem_entries_iff hV).mp he
    rw [node_entryAt, id_entryAt]
    rfl
  acyclic r hr := by
    obtain ⟨c, _, source, _, he⟩ := (mem_entries_iff hV).mp (mem_runnables_iff.mp hr)
    cases source with
    | error message => cases he
    | ok p =>
      rw [entryAt, entryOf] at he
      split at he
      · cases he
      · next hnone =>
        cases he
        intro hcycle
        obtain ⟨cycle, hc, hmem⟩ := (Graph.exists_mem_cycles_iff (isClosed_graphOf nb)).mpr hcycle
        exact (fault?_eq_none_iff.mp hnone).2.2 cycle hc hmem

end Plan

end Recalc
