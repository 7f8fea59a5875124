import Mathlib.Data.List.Sort
import Mathlib.Data.String.Basic
import Recalc.Graph.Conflict
import Recalc.Proofs.Graph.Restriction

/-!
# Names in conflict

In a graph made from interfaces, a name is in conflict at a cell that exports it if another cell
exports it too (`mem_conflicts_ofInterfaces_iff`). The name `default` makes no rivals, so it is in
conflict only where it comes in by an import, at a cell that imports and exports it.

Rivals are neighbours, so the conflicts of a cell can be read off any part of the graph that holds the
cell and the cells that feed it.
-/

namespace Recalc

namespace Graph

theorem pairwise_conflicts (g : Graph) (id : CellId) :
    (g.conflicts id).Pairwise fun x y => x < y := by
  have hle : (g.conflicts id).Pairwise fun x y => decide (x ≤ y) = true := by
    refine List.pairwise_mergeSort (fun x y z hxy hyz => ?_) (fun x y => ?_) _
    · exact decide_eq_true (le_trans (of_decide_eq_true hxy) (of_decide_eq_true hyz))
    · simpa using le_total x y
  have hnodup : (g.conflicts id).Nodup :=
    (List.mergeSort_perm _ _).nodup_iff.mpr (nodup_eraseDups _)
  refine (List.Pairwise.and hle hnodup).imp fun h => ?_
  exact lt_of_le_of_ne (of_decide_eq_true h.1) h.2

theorem conflicts_eq_of_mem_iff {g h : Graph} {id : CellId}
    (hmem : ∀ name, name ∈ g.conflicts id ↔ name ∈ h.conflicts id) :
    g.conflicts id = h.conflicts id :=
  (g.pairwise_conflicts id).sortedLT.eq_of_mem_iff (h.pairwise_conflicts id).sortedLT hmem

variable {cells : List Interface} {id : CellId} {name : Name}

theorem mem_sent_ofInterfaces_iff :
    name ∈ (ofInterfaces cells).sent id ↔
      ∃ p ∈ cells, p.id = id ∧ p.Exports name ∧
        ((∃ c ∈ cells, ∃ i ∈ c.imports, i.input = name) ∨
          (name ≠ Name.default ∧ ∃ c ∈ cells, c.id ≠ id ∧ c.Exports name)) := by
  rw [mem_sent_iff]
  constructor
  · rintro ⟨a, ha, rfl, rfl⟩
    obtain ⟨p, hp, e, he, c, hc, ⟨i, hi, hie, rfl⟩ | ⟨hd, ⟨hne, hexp⟩, rfl⟩⟩ :=
      mem_arcs_ofInterfaces_iff.mp ha
    · exact ⟨p, hp, rfl, ⟨e, he, rfl⟩, Or.inl ⟨c, hc, i, hi, hie⟩⟩
    · exact ⟨p, hp, rfl, ⟨e, he, rfl⟩, Or.inr ⟨hd, c, hc, hne, hexp⟩⟩
  · rintro ⟨p, hp, rfl, ⟨e, he, rfl⟩, ⟨c, hc, i, hi, hie⟩ | ⟨hd, c, hc, hne, hexp⟩⟩
    · exact ⟨_, mem_arcs_ofInterfaces_iff.mpr ⟨p, hp, e, he, c, hc, Or.inl ⟨i, hi, hie, rfl⟩⟩,
        rfl, rfl⟩
    · exact ⟨_, mem_arcs_ofInterfaces_iff.mpr
        ⟨p, hp, e, he, c, hc, Or.inr ⟨hd, ⟨hne, hexp⟩, rfl⟩⟩, rfl, rfl⟩

theorem mem_received_ofInterfaces_iff :
    name ∈ (ofInterfaces cells).received id ↔
      ∃ q ∈ cells, q.id ≠ id ∧ q.Exports name ∧
        ((∃ c ∈ cells, c.id = id ∧ ∃ i ∈ c.imports, i.input = name) ∨
          (name ≠ Name.default ∧ ∃ c ∈ cells, c.id = id ∧ c.Exports name)) := by
  rw [mem_received_iff]
  constructor
  · rintro ⟨a, ha, rfl, hne, rfl⟩
    obtain ⟨q, hq, e, he, c, hc, ⟨i, hi, hie, rfl⟩ | ⟨hd, ⟨_, hexp⟩, rfl⟩⟩ :=
      mem_arcs_ofInterfaces_iff.mp ha
    · exact ⟨q, hq, hne, ⟨e, he, rfl⟩, Or.inl ⟨c, hc, rfl, i, hi, hie⟩⟩
    · exact ⟨q, hq, hne, ⟨e, he, rfl⟩, Or.inr ⟨hd, c, hc, rfl, hexp⟩⟩
  · rintro ⟨q, hq, hne, ⟨e, he, rfl⟩, ⟨c, hc, rfl, i, hi, hie⟩ | ⟨hd, c, hc, rfl, hexp⟩⟩
    · exact ⟨_, mem_arcs_ofInterfaces_iff.mpr ⟨q, hq, e, he, c, hc, Or.inl ⟨i, hi, hie, rfl⟩⟩,
        rfl, hne, rfl⟩
    · exact ⟨_, mem_arcs_ofInterfaces_iff.mpr
        ⟨q, hq, e, he, c, hc, Or.inr ⟨hd, ⟨hne.symm, hexp⟩, rfl⟩⟩, rfl, hne, rfl⟩

/-- A name is in conflict where it is exported while another cell exports it too; `default` only
where it is imported as well. -/
theorem mem_conflicts_ofInterfaces_iff :
    name ∈ (ofInterfaces cells).conflicts id ↔
      (∃ p ∈ cells, p.id = id ∧ p.Exports name) ∧ (∃ q ∈ cells, q.id ≠ id ∧ q.Exports name) ∧
        (name = Name.default → ∃ c ∈ cells, c.id = id ∧ ∃ i ∈ c.imports, i.input = name) := by
  rw [mem_conflicts_iff, mem_received_ofInterfaces_iff, mem_sent_ofInterfaces_iff]
  constructor
  · rintro ⟨⟨q, hq, hne, hqexp, hin⟩, p, hp, hpid, hpexp, _⟩
    refine ⟨⟨p, hp, hpid, hpexp⟩, ⟨q, hq, hne, hqexp⟩, fun hd => ?_⟩
    rcases hin with hread | ⟨hnd, _⟩
    · exact hread
    · exact absurd hd hnd
  · rintro ⟨⟨p, hp, hpid, hpexp⟩, ⟨q, hq, hne, hqexp⟩, hdefault⟩
    by_cases hd : name = Name.default
    · obtain ⟨c, hc, hcid, i, hi, hie⟩ := hdefault hd
      exact ⟨⟨q, hq, hne, hqexp, Or.inl ⟨c, hc, hcid, i, hi, hie⟩⟩, p, hp, hpid, hpexp,
        Or.inl ⟨c, hc, i, hi, hie⟩⟩
    · exact ⟨⟨q, hq, hne, hqexp, Or.inr ⟨hd, p, hp, hpid, hpexp⟩⟩, p, hp, hpid, hpexp,
        Or.inr ⟨hd, q, hq, hne, hqexp⟩⟩

theorem feeds_of_mem_conflicts (h : name ∈ (ofInterfaces cells).conflicts id) {q : Interface}
    (hq : q ∈ cells) (hne : q.id ≠ id) (hexp : q.Exports name) :
    (ofInterfaces cells).Feeds q.id id := by
  obtain ⟨⟨p, hp, rfl, hpexp⟩, _, hdefault⟩ := mem_conflicts_ofInterfaces_iff.mp h
  obtain ⟨e, he, rfl⟩ := hexp
  by_cases hd : e.output = Name.default
  · obtain ⟨c, hc, hcid, i, hi, hie⟩ := hdefault hd
    exact ⟨_, mem_arcs_ofInterfaces_iff.mpr ⟨q, hq, e, he, c, hc, Or.inl ⟨i, hi, hie, rfl⟩⟩,
      rfl, hcid⟩
  · exact ⟨_, mem_arcs_ofInterfaces_iff.mpr
      ⟨q, hq, e, he, p, hp, Or.inr ⟨hd, ⟨hne.symm, hpexp⟩, rfl⟩⟩, rfl, rfl⟩

theorem conflicts_restrict {keep : CellId → Bool} (hid : keep id = true)
    (hfeeds : ∀ u, (ofInterfaces cells).Feeds u id → keep u = true) :
    ((ofInterfaces cells).restrict keep).conflicts id = (ofInterfaces cells).conflicts id := by
  apply conflicts_eq_of_mem_iff
  intro name
  rw [← ofInterfaces_filter]
  constructor
  · intro h
    rw [mem_conflicts_ofInterfaces_iff] at h ⊢
    obtain ⟨⟨p, hp, hpid, hpexp⟩, ⟨q, hq, hne, hqexp⟩, hdefault⟩ := h
    refine ⟨⟨p, (List.mem_filter.mp hp).1, hpid, hpexp⟩,
      ⟨q, (List.mem_filter.mp hq).1, hne, hqexp⟩, fun hd => ?_⟩
    obtain ⟨c, hc, hcid, hread⟩ := hdefault hd
    exact ⟨c, (List.mem_filter.mp hc).1, hcid, hread⟩
  · intro h
    have hfed : ∀ q ∈ cells, q.id ≠ id → q.Exports name → keep q.id = true :=
      fun _ hq hne hexp => hfeeds _ (feeds_of_mem_conflicts h hq hne hexp)
    rw [mem_conflicts_ofInterfaces_iff] at h ⊢
    obtain ⟨⟨p, hp, hpid, hpexp⟩, ⟨q, hq, hne, hqexp⟩, hdefault⟩ := h
    refine ⟨⟨p, List.mem_filter.mpr ⟨hp, hpid ▸ hid⟩, hpid, hpexp⟩,
      ⟨q, List.mem_filter.mpr ⟨hq, hfed q hq hne hqexp⟩, hne, hqexp⟩, fun hd => ?_⟩
    obtain ⟨c, hc, hcid, hread⟩ := hdefault hd
    exact ⟨c, List.mem_filter.mpr ⟨hc, hcid ▸ hid⟩, hcid, hread⟩

end Graph

end Recalc
