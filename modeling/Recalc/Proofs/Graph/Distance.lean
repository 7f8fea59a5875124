import Recalc.Proofs.Graph.Reach

/-!
# Nearest first

After each layer the search has met the cells up to some distance from the start, and the last layer
holds those at that distance (`Reached`). So the cells are listed by distance, each once
(`listsReachable_laterLayers`).

The layers are those of a search with a queue, which looks at one arc after the other: it comes to an
end, with the same cells in the same order (`spreads_iff`).
-/

namespace Recalc

open Relation

/-- A walk along a relation, of so many steps. -/
inductive Walk (r : CellId → CellId → Prop) : Nat → CellId → CellId → Prop
  | nil {u : CellId} : Walk r 0 u u
  | snoc {n : Nat} {u v w : CellId} (hwalk : Walk r n u v) (hstep : r v w) : Walk r (n + 1) u w

/-- The number of steps of a shortest walk. -/
structure IsDistance (r : CellId → CellId → Prop) (u v : CellId) (n : Nat) : Prop where
  walk : Walk r n u v
  shortest : ∀ m, Walk r m u v → n ≤ m

/-- A list of all cells that walks from a cell lead to, each once, the nearer ones first. -/
structure ListsReachable (r : CellId → CellId → Prop) (start : CellId) (found : List CellId) :
    Prop where
  nodup : found.Nodup
  mem_iff : ∀ v, v ∈ found ↔ v ≠ start ∧ ReflTransGen r start v
  nearest_first : found.Pairwise fun u v =>
    ∃ m n, IsDistance r start u m ∧ IsDistance r start v n ∧ m ≤ n

/-- A search with a queue. It looks at the neighbours of the cell that left the queue last, puts those
that are new at the end of the queue, and then takes the next cell; it ends, having met the cells of
the last list. -/
inductive Spreads (next : CellId → List CellId) :
    List CellId → List CellId → List CellId → List CellId → Prop
  | done {seen : List CellId} : Spreads next seen [] [] []
  | take {seen queue found : List CellId} {u : CellId}
      (hrest : Spreads next seen (next u) queue found) : Spreads next seen [] (u :: queue) found
  | pass {seen neighbours queue found : List CellId} {v : CellId} (hseen : v ∈ seen)
      (hrest : Spreads next seen neighbours queue found) :
      Spreads next seen (v :: neighbours) queue found
  | meet {seen neighbours queue found : List CellId} {v : CellId} (hnew : v ∉ seen)
      (hrest : Spreads next (seen ++ [v]) neighbours (queue ++ [v]) found) :
      Spreads next seen (v :: neighbours) queue (v :: found)

section Layers

variable {next : CellId → List CellId} {start : CellId} {depth rounds : Nat}
  {seen layer : List CellId}

/-- What a search has met after so many layers. -/
structure Reached (next : CellId → List CellId) (start : CellId) (depth : Nat)
    (seen layer : List CellId) : Prop where
  mem_seen_iff : ∀ v, v ∈ seen ↔ ∃ n ≤ depth, Walk (fun u v => v ∈ next u) n start v
  mem_layer_iff : ∀ v, v ∈ layer ↔ IsDistance (fun u v => v ∈ next u) start v depth

theorem reached_start (next : CellId → List CellId) (start : CellId) :
    Reached next start 0 [start] [start] := by
  have hnil : ∀ v, v ∈ [start] ↔ Walk (fun u v => v ∈ next u) 0 start v := by
    intro v
    rw [List.mem_singleton]
    constructor
    · rintro rfl
      exact .nil
    · intro h
      cases h
      rfl
  refine ⟨fun v => ?_, fun v => ?_⟩
  · rw [hnil v]
    constructor
    · exact fun h => ⟨0, Nat.le_refl 0, h⟩
    · rintro ⟨n, hn, h⟩
      exact Nat.le_zero.mp hn ▸ h
  · rw [hnil v]
    exact ⟨fun h => ⟨h, fun _ _ => Nat.zero_le _⟩, IsDistance.walk⟩

theorem Reached.mem_nextLayer_iff (h : Reached next start depth seen layer) {v : CellId} :
    v ∈ nextLayer next seen layer ↔ IsDistance (fun u v => v ∈ next u) start v (depth + 1) := by
  rw [Recalc.mem_nextLayer_iff]
  constructor
  · rintro ⟨⟨u, hu, huv⟩, hnew⟩
    refine ⟨.snoc ((h.mem_layer_iff u).mp hu).walk huv, fun m hm => ?_⟩
    exact Nat.lt_of_not_le fun hle => hnew ((h.mem_seen_iff v).mpr ⟨m, hle, hm⟩)
  · intro hv
    refine ⟨?_, fun hseen => ?_⟩
    · cases hv.walk with
      | @snoc _ _ u _ hwalk hstep =>
        refine ⟨u, (h.mem_layer_iff u).mpr ⟨hwalk, fun m hm => ?_⟩, hstep⟩
        exact Nat.le_of_succ_le_succ (hv.shortest (m + 1) (.snoc hm hstep))
    · obtain ⟨m, hm, hwalk⟩ := (h.mem_seen_iff v).mp hseen
      exact Nat.not_succ_le_self depth (Nat.le_trans (hv.shortest m hwalk) hm)

theorem Reached.deepen (h : Reached next start depth seen layer) :
    Reached next start (depth + 1) (seen ++ nextLayer next seen layer)
      (nextLayer next seen layer) := by
  refine ⟨fun v => ?_, fun v => h.mem_nextLayer_iff⟩
  rw [List.mem_append, h.mem_nextLayer_iff, h.mem_seen_iff]
  constructor
  · rintro (⟨n, hn, hwalk⟩ | hv)
    · exact ⟨n, Nat.le_succ_of_le hn, hwalk⟩
    · exact ⟨depth + 1, Nat.le_refl _, hv.walk⟩
  · rintro ⟨n, hn, hwalk⟩
    by_cases hnear : ∃ m ≤ depth, Walk (fun u v => v ∈ next u) m start v
    · exact Or.inl hnear
    · have hfar : ∀ m, Walk (fun u v => v ∈ next u) m start v → depth + 1 ≤ m := fun m hm =>
        Nat.lt_of_not_le fun hle => hnear ⟨m, hle, hm⟩
      have hexact : n = depth + 1 := Nat.le_antisymm hn (hfar n hwalk)
      exact Or.inr ⟨hexact ▸ hwalk, hfar⟩

theorem Reached.exists_distance (h : Reached next start depth seen layer) {v : CellId}
    (hv : v ∈ laterLayers next rounds seen layer) :
    ∃ n, depth < n ∧ IsDistance (fun u v => v ∈ next u) start v n := by
  induction rounds generalizing depth seen layer with
  | zero => cases hv
  | succ rounds ih =>
    cases List.mem_append.mp hv with
    | inl hfresh => exact ⟨depth + 1, Nat.lt_succ_self depth, h.mem_nextLayer_iff.mp hfresh⟩
    | inr hlater =>
      obtain ⟨n, hn, hdistance⟩ := ih h.deepen hlater
      exact ⟨n, Nat.lt_of_succ_lt hn, hdistance⟩

theorem Reached.nearest_first (h : Reached next start depth seen layer) (rounds : Nat) :
    (laterLayers next rounds seen layer).Pairwise fun u v =>
      ∃ m n, IsDistance (fun u v => v ∈ next u) start u m ∧
        IsDistance (fun u v => v ∈ next u) start v n ∧ m ≤ n := by
  induction rounds generalizing depth seen layer with
  | zero => exact .nil
  | succ rounds ih =>
    refine List.pairwise_append.mpr ⟨?_, ih h.deepen, fun u hu v hv => ?_⟩
    · refine List.pairwise_of_forall_mem_list fun u hu v hv => ?_
      exact ⟨depth + 1, depth + 1, h.mem_nextLayer_iff.mp hu, h.mem_nextLayer_iff.mp hv,
        Nat.le_refl _⟩
    · obtain ⟨n, hn, hdistance⟩ := h.deepen.exists_distance hv
      exact ⟨depth + 1, n, h.mem_nextLayer_iff.mp hu, hdistance, Nat.le_of_lt hn⟩

theorem nodup_laterLayers (next : CellId → List CellId) (rounds : Nat)
    (seen layer : List CellId) : (laterLayers next rounds seen layer).Nodup := by
  induction rounds generalizing seen layer with
  | zero => exact List.nodup_nil
  | succ rounds ih =>
    refine List.nodup_append.mpr ⟨(nodup_eraseDups _).filter _, ih _ _, ?_⟩
    rintro u hu v hv rfl
    exact not_mem_seen_of_mem_laterLayers hv (List.mem_append_right _ hu)

theorem listsReachable_laterLayers (cells : List CellId)
    (hcells : ∀ u, ∀ v ∈ next u, v ∈ cells) (hrounds : cells.length ≤ rounds) (start : CellId) :
    ListsReachable (fun u v => v ∈ next u) start (laterLayers next rounds [start] [start]) where
  nodup := nodup_laterLayers next rounds [start] [start]
  mem_iff _ := mem_laterLayers_start_iff cells hcells hrounds
  nearest_first := (reached_start next start).nearest_first rounds

end Layers

/-! ## The search with a queue -/

section Queue

variable {next arcs : CellId → List CellId} {seen neighbours queue found layer : List CellId}

/-- The cells of a list that have not been met, each once. -/
def newIn (seen neighbours : List CellId) : List CellId :=
  (neighbours.filter fun v => decide (v ∉ seen)).eraseDups

theorem newIn_cons_of_mem {v : CellId} (hseen : v ∈ seen) :
    newIn seen (v :: neighbours) = newIn seen neighbours := by
  rw [newIn, List.filter_cons_of_neg (by simpa using hseen)]
  rfl

theorem newIn_cons_of_not_mem {v : CellId} (hnew : v ∉ seen) :
    newIn seen (v :: neighbours) = v :: newIn (seen ++ [v]) neighbours := by
  rw [newIn, List.filter_cons_of_pos (by simpa using hnew), List.eraseDups_cons,
    List.filter_filter, newIn]
  congr 2
  refine List.filter_congr fun w _ => ?_
  rw [Bool.eq_iff_iff]
  simp [and_comm]

theorem nextLayer_eq_newIn (next : CellId → List CellId) (seen layer : List CellId) :
    nextLayer next seen layer = newIn seen (layer.flatMap next) :=
  filter_eraseDups _ _

theorem newIn_append (seen neighbours more : List CellId) :
    newIn seen (neighbours ++ more) =
      newIn seen neighbours ++ newIn (seen ++ newIn seen neighbours) more := by
  induction neighbours generalizing seen with
  | nil => simp [newIn]
  | cons v rest ih =>
    by_cases hv : v ∈ seen
    · rw [List.cons_append, newIn_cons_of_mem hv, newIn_cons_of_mem hv, ih]
    · rw [List.cons_append, newIn_cons_of_not_mem hv, newIn_cons_of_not_mem hv, ih,
        List.cons_append, List.append_assoc, List.singleton_append]

theorem newIn_eraseDups (seen neighbours : List CellId) :
    newIn seen neighbours.eraseDups = newIn seen neighbours := by
  rw [newIn, filter_eraseDups, eraseDups_of_nodup (nodup_eraseDups _)]
  rfl

theorem Spreads.unique {found' : List CellId} (h : Spreads next seen neighbours queue found)
    (h' : Spreads next seen neighbours queue found') : found = found' := by
  induction h generalizing found' with
  | done =>
    cases h'
    rfl
  | take _ ih =>
    cases h' with
    | take hrest => exact ih hrest
  | pass hseen _ ih =>
    cases h' with
    | pass _ hrest => exact ih hrest
    | meet hnew => exact absurd hseen hnew
  | meet hnew _ ih =>
    cases h' with
    | pass hseen => exact absurd hseen hnew
    | meet _ hrest => rw [ih hrest]

/-- Going through the neighbours of one cell. -/
theorem Spreads.of_neighbours
    (h : Spreads next (seen ++ newIn seen neighbours) [] (queue ++ newIn seen neighbours) found) :
    Spreads next seen neighbours queue (newIn seen neighbours ++ found) := by
  induction neighbours generalizing seen queue with
  | nil => simpa [newIn] using h
  | cons v rest ih =>
    by_cases hv : v ∈ seen
    · rw [newIn_cons_of_mem hv] at h ⊢
      exact .pass hv (ih h)
    · rw [newIn_cons_of_not_mem hv] at h ⊢
      refine .meet hv (ih ?_)
      rwa [List.append_assoc, List.append_assoc]

/-- Going through a layer, while the next one gathers at the end of the queue. Several arcs between two
cells make no difference. -/
theorem Spreads.of_layer (hnext : ∀ u, next u = (arcs u).eraseDups)
    (h : Spreads arcs (seen ++ nextLayer next seen layer) [] (queue ++ nextLayer next seen layer)
      found) :
    Spreads arcs seen [] (layer ++ queue) (nextLayer next seen layer ++ found) := by
  induction layer generalizing seen queue with
  | nil => simpa [nextLayer] using h
  | cons u rest ih =>
    have hsplit : nextLayer next seen (u :: rest) =
        newIn seen (arcs u) ++ nextLayer next (seen ++ newIn seen (arcs u)) rest := by
      rw [nextLayer_eq_newIn, nextLayer_eq_newIn, List.flatMap_cons, newIn_append, hnext u,
        newIn_eraseDups]
    rw [hsplit] at h ⊢
    rw [List.append_assoc, List.cons_append]
    refine .take (.of_neighbours ?_)
    rw [List.append_assoc]
    refine ih ?_
    rwa [List.append_assoc, List.append_assoc]

theorem Spreads.of_last_layer (hnext : ∀ u, next u = (arcs u).eraseDups)
    (hlast : nextLayer next seen layer = []) : Spreads arcs seen [] layer [] := by
  have hdone : Spreads arcs (seen ++ nextLayer next seen layer) []
      ([] ++ nextLayer next seen layer) [] := by
    rw [hlast]
    exact .done
  simpa [hlast] using Spreads.of_layer hnext hdone

/-- The rounds are enough as long as they cover the cells that have not been met. -/
theorem spreads_laterLayers {cells : List CellId} {rounds : Nat}
    (hnext : ∀ u, next u = (arcs u).eraseDups) (hcells : ∀ u, ∀ v ∈ next u, v ∈ cells)
    (hrounds : (cells.filter fun v => decide (v ∉ seen)).length ≤ rounds) :
    Spreads arcs seen [] layer (laterLayers next rounds seen layer) := by
  induction rounds generalizing seen layer with
  | zero =>
    have hall : ∀ v ∈ cells, v ∈ seen := by simpa using hrounds
    refine .of_last_layer hnext (List.eq_nil_iff_forall_not_mem.mpr fun v hv => ?_)
    obtain ⟨⟨u, _, huv⟩, hnew⟩ := mem_nextLayer_iff.mp hv
    exact hnew (hall v (hcells u v huv))
  | succ rounds ih =>
    rw [laterLayers]
    cases hfresh : nextLayer next seen layer with
    | nil =>
      rw [List.nil_append, laterLayers_nil]
      exact .of_last_layer hnext hfresh
    | cons w rest =>
      rw [← hfresh]
      have hw : w ∈ nextLayer next seen layer := hfresh ▸ List.mem_cons_self
      obtain ⟨⟨x, _, hxw⟩, hnew⟩ := mem_nextLayer_iff.mp hw
      have hless := length_filter_append_lt (hcells x w hxw) hnew hw
      have hlater : Spreads arcs (seen ++ nextLayer next seen layer) []
          ([] ++ nextLayer next seen layer) _ := ih (by omega)
      have hlayer := Spreads.of_layer hnext hlater
      rwa [List.append_nil] at hlayer

theorem spreads_iff (cells : List CellId) {rounds : Nat} {start : CellId}
    (hnext : ∀ u, next u = (arcs u).eraseDups) (hcells : ∀ u, ∀ v ∈ next u, v ∈ cells)
    (hrounds : cells.length ≤ rounds) :
    Spreads arcs [start] [] [start] found ↔ found = laterLayers next rounds [start] [start] := by
  have hends : Spreads arcs [start] [] [start] (laterLayers next rounds [start] [start]) :=
    spreads_laterLayers hnext hcells (Nat.le_trans (List.length_filter_le _ _) hrounds)
  exact ⟨fun h => h.unique hends, fun h => h ▸ hends⟩

end Queue

/-! ## What a cell depends on, and what depends on it -/

namespace Graph

variable {g : Graph} {id : CellId}

theorem listsReachable_descendants (hg : g.IsClosed) (id : CellId) :
    ListsReachable g.Feeds id (g.descendants id) :=
  mem_targets_eq_feeds ▸ listsReachable_laterLayers g.ids hg.mem_of_mem_targets
    (Nat.le_refl _) id

theorem listsReachable_ancestors (hg : g.IsClosed) (id : CellId) :
    ListsReachable (Function.swap g.Feeds) id (g.ancestors id) :=
  mem_sources_eq_swap_feeds ▸ listsReachable_laterLayers g.ids hg.mem_of_mem_sources
    (Nat.le_refl _) id

theorem spreads_outputs_iff (hg : g.IsClosed) {found : List CellId} :
    Spreads (fun u => (g.outputs u).map Prod.fst) [id] [] [id] found ↔
      found = g.descendants id :=
  spreads_iff g.ids (fun _ => rfl) hg.mem_of_mem_targets (Nat.le_refl _)

theorem spreads_inputs_iff (hg : g.IsClosed) {found : List CellId} :
    Spreads (fun v => (g.inputs v).map Prod.fst) [id] [] [id] found ↔
      found = g.ancestors id :=
  spreads_iff g.ids (fun _ => rfl) hg.mem_of_mem_sources (Nat.le_refl _)

theorem mem_descendants_iff_mem_ancestors (hg : g.IsClosed) {u v : CellId} :
    v ∈ g.descendants u ↔ u ∈ g.ancestors v := by
  rw [mem_descendants_iff hg, mem_ancestors_iff hg, reflTransGen_swap, ne_comm]

/-- A cell that is not in the graph has no arcs. -/
theorem eq_of_reach_of_not_mem (hg : g.IsClosed) {u v : CellId} (hu : u ∉ g.ids)
    (h : ReflTransGen g.Feeds u v ∨ ReflTransGen g.Feeds v u) : v = u := by
  rcases h with h | h
  · rcases h.cases_head with heq | ⟨x, hux, _⟩
    · exact heq.symm
    · exact absurd (hg u x hux).1 hu
  · rcases h.cases_tail with heq | ⟨x, _, hxu⟩
    · exact heq.symm
    · exact absurd (hg x u hxu).2 hu

theorem descendants_of_not_mem (hg : g.IsClosed) (hid : id ∉ g.ids) : g.descendants id = [] := by
  refine List.eq_nil_iff_forall_not_mem.mpr fun v hv => ?_
  obtain ⟨hne, hwalk⟩ := (mem_descendants_iff hg).mp hv
  exact hne (eq_of_reach_of_not_mem hg hid (Or.inl hwalk))

theorem ancestors_of_not_mem (hg : g.IsClosed) (hid : id ∉ g.ids) : g.ancestors id = [] := by
  refine List.eq_nil_iff_forall_not_mem.mpr fun v hv => ?_
  obtain ⟨hne, hwalk⟩ := (mem_ancestors_iff hg).mp hv
  exact hne (eq_of_reach_of_not_mem hg hid (Or.inr (reflTransGen_swap.mp hwalk)))

/-- What a cell feeds, and what feeds it, directly or through others. The search for either ends by
itself, along all arcs and with a queue; it lists exactly the cells that walks lead to, each once, by
their distance. A cell that is not in the graph has none, and one cell is fed by another if and only
if the other feeds it. -/
theorem reachable_nearest_first (cells : List Interface) :
    let g := ofInterfaces cells
    (∀ id found, (Spreads (fun u => (g.outputs u).map Prod.fst) [id] [] [id] found ↔
        found = g.descendants id) ∧
      (Spreads (fun v => (g.inputs v).map Prod.fst) [id] [] [id] found ↔
        found = g.ancestors id)) ∧
    (∀ id, ListsReachable g.Feeds id (g.descendants id) ∧
      ListsReachable (Function.swap g.Feeds) id (g.ancestors id)) ∧
    (∀ id, id ∉ g.ids → g.descendants id = [] ∧ g.ancestors id = []) ∧
    ∀ u v, v ∈ g.descendants u ↔ u ∈ g.ancestors v := by
  intro g
  have hg : g.IsClosed := isClosed_ofInterfaces cells
  refine ⟨fun id found => ⟨spreads_outputs_iff hg, spreads_inputs_iff hg⟩,
    fun id => ⟨listsReachable_descendants hg id, listsReachable_ancestors hg id⟩,
    fun id hid => ⟨descendants_of_not_mem hg hid, ancestors_of_not_mem hg hid⟩, ?_⟩
  exact fun _ _ => mem_descendants_iff_mem_ancestors hg

/-- Two ways lead around a cycle. The far cell comes last and once, and the start is not listed, though
it feeds itself through the others. -/
theorem reachable_nearest_first_two_ways :
    let g := ofInterfaces [⟨⟨0⟩, [Link.same "d"], [Link.same "a"]⟩,
      ⟨⟨1⟩, [Link.same "a"], [Link.same "b"]⟩, ⟨⟨2⟩, [Link.same "b", Link.same "c"], [Link.same "d"]⟩,
      ⟨⟨3⟩, [Link.same "a"], [Link.same "c"]⟩]
    ListsReachable g.Feeds ⟨0⟩ [⟨1⟩, ⟨3⟩, ⟨2⟩] ∧
      ⟨4⟩ ∉ g.ids ∧ g.descendants ⟨4⟩ = [] ∧ g.ancestors ⟨4⟩ = [] := by
  intro g
  have hfound : g.descendants ⟨0⟩ = [⟨1⟩, ⟨3⟩, ⟨2⟩] := by decide +kernel
  have hmissing : (⟨4⟩ : CellId) ∉ g.ids := by decide +kernel
  obtain ⟨_, hlists, hnone, _⟩ := reachable_nearest_first _
  exact ⟨hfound ▸ (hlists ⟨0⟩).1, hmissing, hnone ⟨4⟩ hmissing⟩

end Graph

end Recalc
