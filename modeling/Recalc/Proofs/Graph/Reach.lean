import Mathlib.Logic.Relation
import Recalc.Graph.Reach
import Recalc.Proofs.Graph.Order
import Recalc.Proofs.Graph.Restriction

/-!
# Reachable cells

The layers of a breadth-first search hold exactly the cells that a walk along the arcs leads to, the
start left out (`mem_laterLayers_start_iff`).

While the search goes on, every neighbour of a cell met before the last layer has been met. A layer
without new cells therefore closes the search, and every other layer uses up a cell of the graph, so
there are rounds enough.
-/

namespace Recalc

open Relation

section Layers

variable {next : CellId → List CellId} {seen layer : List CellId} {rounds : Nat} {id : CellId}

theorem not_mem_seen_of_mem_laterLayers (h : id ∈ laterLayers next rounds seen layer) :
    id ∉ seen := by
  induction rounds generalizing seen layer with
  | zero => cases h
  | succ rounds ih =>
    cases List.mem_append.mp h with
    | inl hfresh => exact (mem_nextLayer_iff.mp hfresh).2
    | inr hlater => exact fun hid => ih hlater (List.mem_append_left _ hid)

theorem exists_walk_of_mem_laterLayers (h : id ∈ laterLayers next rounds seen layer) :
    ∃ u ∈ layer, ReflTransGen (fun u v => v ∈ next u) u id := by
  induction rounds generalizing seen layer with
  | zero => cases h
  | succ rounds ih =>
    cases List.mem_append.mp h with
    | inl hfresh =>
      obtain ⟨u, hu, hid⟩ := (mem_nextLayer_iff.mp hfresh).1
      exact ⟨u, hu, .single hid⟩
    | inr hlater =>
      obtain ⟨v, hv, hwalk⟩ := ih hlater
      obtain ⟨u, hu, huv⟩ := (mem_nextLayer_iff.mp hv).1
      exact ⟨u, hu, .head huv hwalk⟩

theorem mem_of_walk (hseen : ∀ u ∈ seen, ∀ v ∈ next u, v ∈ seen) {u v : CellId} (hu : u ∈ seen)
    (h : ReflTransGen (fun u v => v ∈ next u) u v) : v ∈ seen := by
  induction h with
  | refl => exact hu
  | tail _ hstep ih => exact hseen _ ih _ hstep

/-- The rounds are enough as long as they cover the cells that have not been met. -/
theorem mem_laterLayers_of_walk {cells : List CellId} (hcells : ∀ u, ∀ v ∈ next u, v ∈ cells)
    (hlayer : ∀ u ∈ layer, u ∈ seen)
    (hbefore : ∀ u ∈ seen, u ∉ layer → ∀ v ∈ next u, v ∈ seen)
    (hrounds : (cells.filter fun v => decide (v ∉ seen)).length ≤ rounds)
    {u v : CellId} (hu : u ∈ seen) (h : ReflTransGen (fun u v => v ∈ next u) u v) :
    v ∈ seen ∨ v ∈ laterLayers next rounds seen layer := by
  induction rounds generalizing seen layer with
  | zero =>
    have hall : ∀ v ∈ cells, v ∈ seen := by simpa using hrounds
    exact Or.inl (mem_of_walk (fun u _ v hv => hall v (hcells u v hv)) hu h)
  | succ rounds ih =>
    have hfresh : ∀ u ∈ seen, ∀ v ∈ next u, v ∈ seen ∨ v ∈ nextLayer next seen layer := by
      intro u hu v hv
      by_cases hul : u ∈ layer
      · by_cases hvs : v ∈ seen
        · exact Or.inl hvs
        · exact Or.inr (mem_nextLayer_iff.mpr ⟨⟨u, hul, hv⟩, hvs⟩)
      · exact Or.inl (hbefore u hu hul v hv)
    cases hnext : nextLayer next seen layer with
    | nil =>
      refine Or.inl (mem_of_walk (fun u hu v hv => ?_) hu h)
      exact (hfresh u hu v hv).resolve_right (hnext ▸ List.not_mem_nil)
    | cons w rest =>
      have hw : w ∈ nextLayer next seen layer := hnext ▸ List.mem_cons_self
      obtain ⟨⟨x, _, hxw⟩, hnew⟩ := mem_nextLayer_iff.mp hw
      have hless := length_filter_append_lt (hcells x w hxw) hnew hw
      have hlater : v ∈ seen ++ nextLayer next seen layer ∨
          v ∈ laterLayers next rounds (seen ++ nextLayer next seen layer)
            (nextLayer next seen layer) := by
        refine ih (fun y hy => List.mem_append_right _ hy) (fun y hy hyl z hz => ?_) (by omega)
          (List.mem_append_left _ hu)
        exact List.mem_append.mpr (hfresh y ((List.mem_append.mp hy).resolve_right hyl) z hz)
      rw [List.mem_append, or_assoc, ← List.mem_append] at hlater
      exact hlater

/-- There are no more layers than cells. -/
theorem mem_laterLayers_start_iff (cells : List CellId)
    (hcells : ∀ u, ∀ v ∈ next u, v ∈ cells) (hrounds : cells.length ≤ rounds) {start v : CellId} :
    v ∈ laterLayers next rounds [start] [start] ↔
      v ≠ start ∧ ReflTransGen (fun u v => v ∈ next u) start v := by
  constructor
  · intro h
    obtain ⟨x, hx, hwalk⟩ := exists_walk_of_mem_laterLayers h
    rw [List.mem_singleton.mp hx] at hwalk
    exact ⟨fun heq => not_mem_seen_of_mem_laterLayers h (List.mem_singleton.mpr heq), hwalk⟩
  · rintro ⟨hne, hwalk⟩
    have hmet : v ∈ [start] ∨ v ∈ laterLayers next rounds [start] [start] :=
      mem_laterLayers_of_walk hcells (fun _ hx => hx) (fun x hx hxl => absurd hx hxl)
        (Nat.le_trans (List.length_filter_le _ _) hrounds) (List.mem_singleton_self start) hwalk
    exact hmet.resolve_left fun h => hne (List.mem_singleton.mp h)

end Layers

namespace Graph

variable {g : Graph}

theorem mem_targets_eq_feeds : (fun u v => v ∈ g.targets u) = g.Feeds :=
  funext fun _ => funext fun _ => propext mem_targets_iff

theorem mem_sources_eq_swap_feeds :
    (fun v u => u ∈ g.sources v) = Function.swap g.Feeds :=
  funext fun _ => funext fun _ => propext mem_sources_iff

theorem IsClosed.mem_of_mem_targets (hg : g.IsClosed) : ∀ u, ∀ v ∈ g.targets u, v ∈ g.ids :=
  fun u v hv => (hg u v (mem_targets_iff.mp hv)).2

theorem IsClosed.mem_of_mem_sources (hg : g.IsClosed) : ∀ v, ∀ u ∈ g.sources v, u ∈ g.ids :=
  fun v u hu => (hg u v (mem_sources_iff.mp hu)).1

theorem mem_descendants_iff (hg : g.IsClosed) {u v : CellId} :
    v ∈ g.descendants u ↔ v ≠ u ∧ ReflTransGen g.Feeds u v := by
  rw [descendants, mem_laterLayers_start_iff g.ids hg.mem_of_mem_targets (Nat.le_refl _),
    mem_targets_eq_feeds]

theorem mem_ancestors_iff (hg : g.IsClosed) {u v : CellId} :
    u ∈ g.ancestors v ↔ u ≠ v ∧ ReflTransGen (Function.swap g.Feeds) v u := by
  rw [ancestors, mem_laterLayers_start_iff g.ids hg.mem_of_mem_sources (Nat.le_refl _),
    mem_sources_eq_swap_feeds]

/-- A cell with all that it feeds is what a walk from it leads to. -/
theorem eq_or_mem_descendants_iff (hg : g.IsClosed) {u v : CellId} :
    v = u ∨ v ∈ g.descendants u ↔ ReflTransGen g.Feeds u v := by
  rw [mem_descendants_iff hg]
  constructor
  · rintro (rfl | ⟨_, hwalk⟩)
    · exact .refl
    · exact hwalk
  · intro hwalk
    by_cases hvu : v = u
    · exact Or.inl hvu
    · exact Or.inr ⟨hvu, hwalk⟩

end Graph

end Recalc
