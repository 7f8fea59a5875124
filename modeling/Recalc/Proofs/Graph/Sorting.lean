import Recalc.Proofs.Graph.Restriction

/-!
# How far the order follows the arcs

The search for the order ends by itself, also if it follows every single one of several arcs between
two cells (`visits_iff`): a cell met a second time is passed over.

A producer stands before its reader unless the reader feeds it in turn, and a list of cells in which
every producer stands before its readers is its own order (`order_follows_arcs`).
-/

namespace Recalc

open Relation

/-- In a list without repetition the members before a cell are those with a smaller index. -/
theorem mem_before_iff {l before after : List CellId} {u v : CellId} (hn : l.Nodup)
    (h : l = before ++ v :: after) : u ∈ before ↔ l.idxOf u < l.idxOf v := by
  subst h
  have hv : v ∉ before := fun hv => (List.nodup_append.mp hn).2.2 v hv v List.mem_cons_self rfl
  rw [List.idxOf_append_of_notMem hv, List.idxOf_cons_self, Nat.add_zero]
  constructor
  · intro hu
    rw [List.idxOf_append_of_mem hu]
    exact List.idxOf_lt_length_of_mem hu
  · intro hlt
    by_contra hu
    rw [List.idxOf_append_of_notMem hu] at hlt
    omega

theorem pairwise_idxOf {l : List CellId} (hn : l.Nodup) :
    l.Pairwise fun u v => l.idxOf u < l.idxOf v := by
  refine List.pairwise_iff_getElem.mpr fun i j hi hj hij => ?_
  rwa [hn.idxOf_getElem i hi, hn.idxOf_getElem j hj]

namespace Search

variable {sources : CellId → List CellId} {s s' : Search} {ids : List CellId} {id : CellId}

theorem Visits.unique {s'' : Search} (h : Visits sources s ids s') (h' : Visits sources s ids s'') :
    s' = s'' := by
  induction h generalizing s'' with
  | done =>
    cases h'
    rfl
  | pass hseen _ ih =>
    cases h' with
    | pass _ hrest => exact ih hrest
    | list hnew => exact absurd hseen hnew
  | list hnew _ _ ihinner ihrest =>
    cases h' with
    | pass hseen => exact absurd hseen hnew
    | list _ hinner hrest =>
      obtain rfl := ihinner hinner
      exact ihrest hrest

theorem Visits.seen_of_seen (h : Visits sources s ids s') {v : CellId} (hv : v ∈ s.seen) :
    v ∈ s'.seen := by
  induction h with
  | done => exact hv
  | pass _ _ ih => exact ih hv
  | list _ _ _ ihinner ihrest => exact ihrest (ihinner (List.mem_cons_of_mem _ hv))

theorem visits_of_seen (h : ∀ v ∈ ids, v ∈ s.seen) : Visits sources s ids s := by
  induction ids with
  | nil => exact .done
  | cons v rest ih =>
    exact .pass (h v List.mem_cons_self) (ih fun w hw => h w (List.mem_cons_of_mem v hw))

/-- A cell that has been seen may be visited again at any place. -/
theorem Visits.of_filter (hid : id ∈ s.seen)
    (h : Visits sources s (ids.filter fun v => !v == id) s') : Visits sources s ids s' := by
  induction ids generalizing s with
  | nil => exact h
  | cons v rest ih =>
    by_cases hv : v = id
    · rw [List.filter_cons_of_neg (by simp [hv])] at h
      exact .pass (hv ▸ hid) (ih hid h)
    · rw [List.filter_cons_of_pos (by simp [hv])] at h
      cases h with
      | pass hseen hrest => exact .pass hseen (ih hid hrest)
      | list hnew hinner hrest =>
        exact .list hnew hinner
          (ih (hinner.seen_of_seen (List.mem_cons_of_mem v hid)) hrest)

theorem Visits.of_eraseDups (h : Visits sources s ids.eraseDups s') : Visits sources s ids s' := by
  induction ids using eraseDups_induction generalizing s with
  | nil => exact h
  | cons v rest ih =>
    rw [List.eraseDups_cons] at h
    cases h with
    | pass hseen hrest => exact .pass hseen (.of_filter hseen (ih hrest))
    | list hnew hinner hrest =>
      refine .list hnew hinner (.of_filter ?_ (ih hrest))
      exact hinner.seen_of_seen List.mem_cons_self

/-- Several arcs between two cells make no difference. -/
theorem Visits.of_arcs (arcs : CellId → List CellId)
    (hsources : ∀ v, sources v = (arcs v).eraseDups) (h : Visits sources s ids s') :
    Visits arcs s ids s' := by
  induction h with
  | done => exact .done
  | pass hseen _ ih => exact .pass hseen ih
  | @list _ _ _ id _ hnew _ _ ihinner ihrest =>
    exact .list hnew (.of_eraseDups (hsources id ▸ ihinner)) ihrest

end Search

namespace Graph

variable {g : Graph}

/-- The search along all arcs, with no bound on its depth, ends with the order. -/
theorem visits_iff (hg : g.IsClosed) {s : Search} :
    Search.Visits (fun v => (g.inputs v).map Prod.fst) ⟨[], []⟩ g.ids s ↔
      s = g.ids.foldl (Search.visit g.sources g.ids.length) ⟨[], []⟩ := by
  have hends := (extends_order hg).visits.of_arcs (fun v => (g.inputs v).map Prod.fst)
    fun _ => rfl
  exact ⟨fun h => h.unique hends, fun h => h ▸ hends⟩

theorem idxOf_order_lt (hg : g.IsClosed) {u v : CellId} (hu : g.Feeds u v)
    (hback : ¬ ReflTransGen g.Feeds v u) : g.order.idxOf u < g.order.idxOf v := by
  obtain ⟨before, after, ho⟩ := List.append_of_mem ((mem_order_iff hg).mpr (hg u v hu).2)
  refine (mem_before_iff (nodup_order hg) ho).mp ((mem_of_feeds hg ho hu).resolve_right ?_)
  exact fun h => hback h.to_reflTransGen

/-- Where all inputs of the cells come earlier, each cell is listed as soon as it is met. -/
theorem visits_of_sorted (hn : g.ids.Nodup)
    (hsorted : ∀ u v, g.Feeds u v → u ≠ v → g.ids.idxOf u < g.ids.idxOf v)
    (before : List CellId) {after : List CellId} (h : g.ids = before ++ after) :
    Search.Visits g.sources ⟨before.reverse, before⟩ after ⟨g.ids.reverse, g.ids⟩ := by
  induction after generalizing before with
  | nil =>
    rw [h, List.append_nil]
    exact .done
  | cons v rest ih =>
    have hnew : v ∉ before.reverse := fun hv =>
      (List.nodup_append.mp (h ▸ hn)).2.2 v (List.mem_reverse.mp hv) v List.mem_cons_self rfl
    have hrest := ih (before ++ [v]) (by simpa using h)
    rw [List.reverse_append] at hrest
    refine .list hnew (Search.visits_of_seen fun u hu => ?_) hrest
    by_cases huv : u = v
    · exact huv ▸ List.mem_cons_self
    · have hlt := hsorted u v (mem_sources_iff.mp hu) huv
      exact List.mem_cons_of_mem v (List.mem_reverse.mpr ((mem_before_iff hn h).mpr hlt))

theorem order_of_sorted (hg : g.IsClosed) (hn : g.ids.Nodup)
    (hsorted : ∀ u v, g.Feeds u v → u ≠ v → g.ids.idxOf u < g.ids.idxOf v) :
    g.order = g.ids := by
  have hvisits := visits_of_sorted hn hsorted [] rfl
  exact congrArg Search.listed ((extends_order hg).visits.unique hvisits)

/-- The search for the order ends by itself, with a list of all cells. In it a producer stands before
its reader unless the reader feeds it in turn; and if the cells come with every producer before its
readers, they keep their order. -/
theorem order_follows_arcs (cells : List Interface) :
    let g := ofInterfaces cells
    (∀ listed, (∃ seen, Search.Visits (fun v => (g.inputs v).map Prod.fst) ⟨[], []⟩ g.ids
      ⟨seen, listed⟩) ↔ listed = g.order) ∧
    g.order.Perm g.ids ∧
    (∀ u v, g.Feeds u v → ¬ ReflTransGen g.Feeds v u → g.order.idxOf u < g.order.idxOf v) ∧
    ((∀ u v, g.Feeds u v → u ≠ v → g.ids.idxOf u < g.ids.idxOf v) → g.order = g.ids) := by
  intro g
  have hg : g.IsClosed := isClosed_ofInterfaces cells
  have hn : g.ids.Nodup := nodup_ids_ofInterfaces cells
  refine ⟨fun listed => ?_, order_perm hg hn, fun _ _ => idxOf_order_lt hg,
    order_of_sorted hg hn⟩
  constructor
  · rintro ⟨seen, h⟩
    exact congrArg Search.listed ((visits_iff hg).mp h)
  · rintro rfl
    exact ⟨_, (visits_iff hg).mpr rfl⟩

/-- A cell that feeds a cycle comes before the cycle, though it is given last; a cell that reads from
itself and feeds the next keeps its place. -/
theorem order_follows_arcs_around_cycle :
    let cyclic := ofInterfaces [⟨⟨0⟩, [Link.same "b", Link.same "x"], [Link.same "a"]⟩,
      ⟨⟨1⟩, [Link.same "a"], [Link.same "b"]⟩, ⟨⟨2⟩, [], [Link.same "x"]⟩]
    let sorted := ofInterfaces [⟨⟨0⟩, [Link.same "a"], [Link.same "a"]⟩,
      ⟨⟨1⟩, [Link.same "a"], [Link.same "b"]⟩]
    (cyclic.Feeds ⟨2⟩ ⟨0⟩ ∧ ¬ ReflTransGen cyclic.Feeds ⟨0⟩ ⟨2⟩ ∧
      cyclic.order.idxOf ⟨2⟩ < cyclic.order.idxOf ⟨0⟩) ∧
    (∀ u v, sorted.Feeds u v → u ≠ v → sorted.ids.idxOf u < sorted.ids.idxOf v) ∧
      sorted.order = sorted.ids := by
  intro cyclic sorted
  have hfeeds : cyclic.Feeds ⟨2⟩ ⟨0⟩ := by decide +kernel
  have hback : ¬ ReflTransGen cyclic.Feeds ⟨0⟩ ⟨2⟩ := by
    have hnone : ∀ a ∈ cyclic.arcs, a.target ≠ ⟨2⟩ := by decide +kernel
    intro h
    cases h with
    | tail _ hlast =>
      obtain ⟨a, ha, _, htarget⟩ := hlast
      exact hnone a ha htarget
  have hsorted : ∀ u v, sorted.Feeds u v → u ≠ v →
      sorted.ids.idxOf u < sorted.ids.idxOf v := by
    have harcs : ∀ a ∈ sorted.arcs, a.source ≠ a.target →
        sorted.ids.idxOf a.source < sorted.ids.idxOf a.target := by decide +kernel
    rintro _ _ ⟨a, ha, rfl, rfl⟩
    exact harcs a ha
  exact ⟨⟨hfeeds, hback, (order_follows_arcs _).2.2.1 _ _ hfeeds hback⟩, hsorted,
    (order_follows_arcs _).2.2.2 hsorted⟩

end Graph

end Recalc
