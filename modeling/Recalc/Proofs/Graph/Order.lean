import Mathlib.Data.List.Perm.Subperm
import Mathlib.Logic.Relation
import Recalc.Graph.Order

/-!
# The order of a graph

The search that lists producers before consumers lists every cell exactly once (`order_perm`). A cell
comes after each cell it reads from that it does not feed itself, and a cell on no cycle comes after
everything that feeds it, directly or through others, also through cycles (`mem_of_ancestor`).

The invariant splits the cells that were seen into those listed and those still open, whose inputs
are being listed. Whatever an open cell waits for feeds it, so meeting an open cell closes a cycle.
-/

namespace Recalc

open Relation

/-- Every arc of the graph joins two of its cells. -/
def Graph.IsClosed (g : Graph) : Prop := ∀ u v, g.Feeds u v → u ∈ g.ids ∧ v ∈ g.ids

theorem Graph.isClosed_ofInterfaces (cells : List Interface) : (ofInterfaces cells).IsClosed :=
  fun _ _ => ids_of_feeds_ofInterfaces

namespace Search

/-- What holds of a search while the inputs of the cells in `waiting` are being listed. -/
structure Consistent (g : Graph) (waiting : List CellId) (s : Search) : Prop where
  mem_seen_iff : ∀ v, v ∈ s.seen ↔ v ∈ s.listed ∨ v ∈ waiting
  nodup : (s.listed ++ waiting).Nodup
  subset : ∀ v ∈ s.listed ++ waiting, v ∈ g.ids
  seen_of_feeds : ∀ v ∈ s.listed, ∀ u, g.Feeds u v → u ∈ s.seen
  before_of_feeds : ∀ before v after, s.listed = before ++ v :: after → ∀ u, g.Feeds u v →
    u ∈ before ∨ TransGen g.Feeds v u
  before_of_ancestor : ∀ before v after, s.listed = before ++ v :: after → ∀ u,
    TransGen g.Feeds u v → u ∈ before ∨ TransGen g.Feeds v v

variable {g : Graph} {waiting : List CellId} {s : Search}

theorem consistent_start (g : Graph) : Consistent g [] ⟨[], []⟩ where
  mem_seen_iff := by simp
  nodup := by simp
  subset := by simp
  seen_of_feeds := by simp
  before_of_feeds := by simp
  before_of_ancestor := by simp

theorem Consistent.push (h : Consistent g waiting s) {id : CellId} (hid : id ∈ g.ids)
    (hnew : id ∉ s.seen) : Consistent g (id :: waiting) { s with seen := id :: s.seen } where
  mem_seen_iff v := by
    rw [List.mem_cons, h.mem_seen_iff, List.mem_cons]
    exact or_left_comm
  nodup := by
    rw [h.mem_seen_iff, ← List.mem_append] at hnew
    exact List.perm_middle.nodup_iff.mpr (List.nodup_cons.mpr ⟨hnew, h.nodup⟩)
  subset v hv := by
    rw [List.mem_append, List.mem_cons, or_left_comm, ← List.mem_append] at hv
    rcases hv with rfl | hv
    · exact hid
    · exact h.subset v hv
  seen_of_feeds v hv u hu := List.mem_cons_of_mem id (h.seen_of_feeds v hv u hu)
  before_of_feeds := h.before_of_feeds
  before_of_ancestor := h.before_of_ancestor

/-- Once all inputs of an open cell on no cycle have been seen, everything that feeds the cell has
been listed: a walk against the arcs stays among the listed cells, because an open cell on it would
be fed by the cell. -/
theorem Consistent.listed_of_ancestor {id : CellId} (h : Consistent g (id :: waiting) s)
    (hseen : ∀ u, g.Feeds u id → u ∈ s.seen) (hopen : ∀ w ∈ waiting, TransGen g.Feeds id w)
    (hcycle : ¬ TransGen g.Feeds id id) {u : CellId} (hu : TransGen g.Feeds u id) :
    u ∈ s.listed := by
  have hlisted : ∀ x, TransGen g.Feeds x id → x ∈ s.seen → x ∈ s.listed := by
    intro x hx hxs
    cases (h.mem_seen_iff x).mp hxs with
    | inl hl => exact hl
    | inr hw =>
      rcases List.mem_cons.mp hw with rfl | hw
      · exact absurd hx hcycle
      · exact absurd ((hopen x hw).trans hx) hcycle
  induction hu using TransGen.head_induction_on with
  | single hui => exact hlisted _ (.single hui) (hseen _ hui)
  | head hux hxid ih => exact hlisted _ (.head hux hxid) (h.seen_of_feeds _ ih _ hux)

theorem split_append_singleton {listed before after : List CellId} {id v : CellId}
    (h : listed ++ [id] = before ++ v :: after) :
    (listed = before ∧ id = v) ∨ ∃ after, listed = before ++ v :: after := by
  rcases List.eq_nil_or_concat after with rfl | ⟨after, last, rfl⟩
  · obtain ⟨rfl, hv⟩ := List.append_inj' h rfl
    exact Or.inl ⟨rfl, List.singleton_inj.mp hv⟩
  · have h' : listed ++ [id] = (before ++ v :: after) ++ [last] := by simpa using h
    exact Or.inr ⟨after, (List.append_inj' h' rfl).1⟩

theorem Consistent.pop {id : CellId} (h : Consistent g (id :: waiting) s)
    (hseen : ∀ u, g.Feeds u id → u ∈ s.seen) (hopen : ∀ w ∈ waiting, TransGen g.Feeds id w) :
    Consistent g waiting { s with listed := s.listed ++ [id] } where
  mem_seen_iff v := by
    rw [h.mem_seen_iff, List.mem_append, List.mem_singleton, List.mem_cons, or_assoc]
  nodup := by simpa using h.nodup
  subset v hv := h.subset v (by simpa [or_assoc] using hv)
  seen_of_feeds v hv u hu := by
    cases List.mem_append.mp hv with
    | inl hv => exact h.seen_of_feeds v hv u hu
    | inr hv => exact hseen u (List.mem_singleton.mp hv ▸ hu)
  before_of_feeds before v after heq u hu := by
    rcases split_append_singleton heq with ⟨rfl, rfl⟩ | ⟨after, heq⟩
    · cases (h.mem_seen_iff u).mp (hseen u hu) with
      | inl hl => exact Or.inl hl
      | inr hw =>
        rcases List.mem_cons.mp hw with rfl | hw
        · exact Or.inr (.single hu)
        · exact Or.inr (hopen u hw)
    · exact h.before_of_feeds before v after heq u hu
  before_of_ancestor before v after heq u hu := by
    rcases split_append_singleton heq with ⟨rfl, rfl⟩ | ⟨after, heq⟩
    · by_cases hcycle : TransGen g.Feeds id id
      · exact Or.inr hcycle
      · exact Or.inl (h.listed_of_ancestor hseen hopen hcycle hu)
    · exact h.before_of_ancestor before v after heq u hu

/-- A row of visits with no bound on their depth: it ends, and leads from the first state of the
search to the last. -/
inductive Visits (sources : CellId → List CellId) : Search → List CellId → Search → Prop
  | done {s : Search} : Visits sources s [] s
  | pass {s s' : Search} {id : CellId} {rest : List CellId} (hseen : id ∈ s.seen)
      (hrest : Visits sources s rest s') : Visits sources s (id :: rest) s'
  | list {s inner s' : Search} {id : CellId} {rest : List CellId} (hnew : id ∉ s.seen)
      (hinner : Visits sources { s with seen := id :: s.seen } (sources id) inner)
      (hrest : Visits sources { inner with listed := inner.listed ++ [id] } rest s') :
      Visits sources s (id :: rest) s'

theorem Visits.cons {sources : CellId → List CellId} {s s' s'' : Search} {id : CellId}
    {rest : List CellId} (h : Visits sources s [id] s') (hrest : Visits sources s' rest s'') :
    Visits sources s (id :: rest) s'' := by
  cases h with
  | pass hseen hdone =>
    cases hdone
    exact .pass hseen hrest
  | list hnew hinner hdone =>
    cases hdone
    exact .list hnew hinner hrest

/-- What a visit, or a row of visits, achieves: the cells asked for have been seen, and what was
listed before stays in front. -/
structure Extends (g : Graph) (waiting : List CellId) (s : Search) (ids : List CellId)
    (s' : Search) : Prop where
  consistent : Consistent g waiting s'
  seen : ∀ v ∈ ids, v ∈ s'.seen
  listed : ∃ more, s'.listed = s.listed ++ more
  visits : Visits g.sources s ids s'

theorem Extends.seen_of_seen {ids : List CellId} {s' : Search} (h : Consistent g waiting s)
    (he : Extends g waiting s ids s') {v : CellId} (hv : v ∈ s.seen) : v ∈ s'.seen := by
  obtain ⟨more, hmore⟩ := he.listed
  rw [he.consistent.mem_seen_iff, hmore, List.mem_append]
  exact ((h.mem_seen_iff v).mp hv).imp Or.inl id

theorem extends_foldl {visit : Search → CellId → Search} {ids : List CellId}
    (hvisit : ∀ s, Consistent g waiting s → ∀ v ∈ ids, Extends g waiting s [v] (visit s v))
    (h : Consistent g waiting s) : Extends g waiting s ids (ids.foldl visit s) := by
  induction ids generalizing s with
  | nil => exact ⟨h, by simp, ⟨[], by simp⟩, .done⟩
  | cons v rest ih =>
    have hv := hvisit s h v List.mem_cons_self
    have hrest := ih (fun s hs w hw => hvisit s hs w (List.mem_cons_of_mem v hw)) hv.consistent
    refine ⟨hrest.consistent, ?_, ?_, hv.visits.cons hrest.visits⟩
    · intro w hw
      rcases List.mem_cons.mp hw with rfl | hw
      · exact hrest.seen_of_seen hv.consistent (hv.seen _ (by simp))
      · exact hrest.seen w hw
    · obtain ⟨first, hfirst⟩ := hv.listed
      obtain ⟨more, hmore⟩ := hrest.listed
      exact ⟨first ++ more, by rw [List.foldl_cons, hmore, hfirst, List.append_assoc]⟩

/-- The depth is enough as long as it covers the cells that are not open. -/
theorem extends_visit (hg : g.IsClosed) {depth : Nat} {waiting : List CellId} {s : Search}
    {id : CellId} (h : Consistent g waiting s) (hid : id ∈ g.ids)
    (hopen : ∀ w ∈ waiting, TransGen g.Feeds id w)
    (hdepth : g.ids.length ≤ depth + waiting.length) :
    Extends g waiting s [id] (visit g.sources depth s id) := by
  induction depth generalizing waiting s id with
  | zero =>
    -- no depth is left only if all cells are open, so this one has been seen
    have hseen : id ∈ s.seen := by
      by_contra hnew
      have hpush := h.push hid hnew
      have hsub : (id :: waiting).Subperm g.ids :=
        List.subperm_of_subset (List.nodup_append.mp hpush.nodup).2.1
          fun v hv => hpush.subset v (List.mem_append_right _ hv)
      have := hsub.length_le
      simp only [List.length_cons] at this
      omega
    exact ⟨h, by simpa [visit] using hseen, ⟨[], by simp [visit]⟩, .pass hseen .done⟩
  | succ depth ih =>
    rw [visit]
    split
    · next hseen => exact ⟨h, by simpa using hseen, ⟨[], by simp⟩, .pass hseen .done⟩
    · next hnew =>
      have hpush := h.push hid hnew
      have hinner : Extends g (id :: waiting) { s with seen := id :: s.seen } (g.sources id)
          ((g.sources id).foldl (visit g.sources depth) { s with seen := id :: s.seen }) := by
        refine extends_foldl (fun s' hs' u hu => ?_) hpush
        have hfeeds : g.Feeds u id := Graph.mem_sources_iff.mp hu
        refine ih hs' (hg u id hfeeds).1 ?_ (by simp only [List.length_cons]; omega)
        intro w hw
        rcases List.mem_cons.mp hw with rfl | hw
        · exact .single hfeeds
        · exact .head hfeeds (hopen w hw)
      have hpop := hinner.consistent.pop
        (fun u hu => hinner.seen u (Graph.mem_sources_iff.mpr hu)) hopen
      obtain ⟨more, hmore⟩ := hinner.listed
      exact ⟨hpop, by simp [hpop.mem_seen_iff], ⟨more ++ [id], by simp [hmore]⟩,
        .list hnew hinner.visits .done⟩

end Search

namespace Graph

variable {g : Graph}

theorem extends_order (hg : g.IsClosed) : Search.Extends g [] ⟨[], []⟩ g.ids
    (g.ids.foldl (Search.visit g.sources g.ids.length) ⟨[], []⟩) :=
  Search.extends_foldl
    (fun _ hs _ hv => Search.extends_visit hg hs hv (by simp) (by simp))
    (Search.consistent_start g)

theorem mem_order_iff (hg : g.IsClosed) {v : CellId} : v ∈ g.order ↔ v ∈ g.ids := by
  have h := extends_order hg
  constructor
  · exact fun hv => h.consistent.subset v (List.mem_append_left _ hv)
  · intro hv
    exact ((h.consistent.mem_seen_iff v).mp (h.seen v hv)).resolve_right List.not_mem_nil

theorem nodup_order (hg : g.IsClosed) : g.order.Nodup :=
  (List.nodup_append.mp (extends_order hg).consistent.nodup).1

theorem order_perm (hg : g.IsClosed) (hn : g.ids.Nodup) : g.order.Perm g.ids :=
  (List.perm_ext_iff_of_nodup (nodup_order hg) hn).mpr fun _ => mem_order_iff hg

/-- A cell comes after every cell it reads from, unless it feeds that cell in turn. -/
theorem mem_of_feeds (hg : g.IsClosed) {before after : List CellId} {u v : CellId}
    (ho : g.order = before ++ v :: after) (hu : g.Feeds u v) :
    u ∈ before ∨ TransGen g.Feeds v u :=
  (extends_order hg).consistent.before_of_feeds before v after ho u hu

theorem mem_of_ancestor (hg : g.IsClosed) {before after : List CellId} {u v : CellId}
    (ho : g.order = before ++ v :: after) (hv : ¬ TransGen g.Feeds v v)
    (hu : TransGen g.Feeds u v) : u ∈ before :=
  ((extends_order hg).consistent.before_of_ancestor before v after ho u hu).resolve_right hv

end Graph

end Recalc
