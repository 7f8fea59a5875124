import Mathlib.Data.List.Count
import Recalc.Proofs.Graph.Cycle

/-!
# Every cycle once

The search for cycles ends by itself. `Explores` is the search with no bound on its depth: along a
path every cell is entered at most once, so it comes to an end, with the cycles that the bounded
search meets (`explores_iff`).

Every elementary cycle is reported exactly once, whichever way it is written
(`cycles_reported_once`).
-/

namespace Recalc

namespace Graph

/-! ## The search without a bound -/

/-- The search for cycles through `start` that has come along `path` and goes on to the cells of a
list in turn: it ends, having met the cycles of the last list. -/
inductive Explores (g : Graph) (start : CellId) :
    List CellId → List CellId → List (List CellId) → Prop
  | done {path : List CellId} : Explores g start path [] []
  | close {path rest : List CellId} {found : List (List CellId)}
      (hrest : Explores g start path rest found) :
      Explores g start path (start :: rest) (path :: found)
  | enter {path rest : List CellId} {next : CellId} {inner found : List (List CellId)}
      (hne : next ≠ start) (hopen : g.IsLater next start ∧ next ∉ path)
      (hinner : Explores g start (path ++ [next]) (g.targets next) inner)
      (hrest : Explores g start path rest found) :
      Explores g start path (next :: rest) (inner ++ found)
  | skip {path rest : List CellId} {next : CellId} {found : List (List CellId)}
      (hne : next ≠ start) (hopen : ¬ (g.IsLater next start ∧ next ∉ path))
      (hrest : Explores g start path rest found) :
      Explores g start path (next :: rest) found

variable {g : Graph} {start : CellId}

theorem Explores.unique {path nexts : List CellId} {found found' : List (List CellId)}
    (h : Explores g start path nexts found) (h' : Explores g start path nexts found') :
    found = found' := by
  induction h generalizing found' with
  | done =>
    cases h'
    rfl
  | close _ ih =>
    cases h' with
    | close hrest => rw [ih hrest]
    | enter hne => exact absurd rfl hne
    | skip hne => exact absurd rfl hne
  | enter hne hopen _ _ ihinner ihrest =>
    cases h' with
    | close => exact absurd rfl hne
    | enter _ _ hinner hrest => rw [ihinner hinner, ihrest hrest]
    | skip _ hclosed => exact absurd hopen hclosed
  | skip hne hclosed _ ih =>
    cases h' with
    | close => exact absurd rfl hne
    | enter _ hopen => exact absurd hopen hclosed
    | skip _ _ hrest => exact ih hrest

/-- The bound is never met as long as it covers the cells that are not on the path. -/
theorem explores_cyclesAlong (hg : g.IsClosed) {room : Nat} {path : List CellId} {current : CellId}
    (hnodup : path.Nodup) (hsub : ∀ v ∈ path, v ∈ g.ids)
    (hroom : g.ids.length < room + path.length) :
    Explores g start path (g.targets current) (g.cyclesAlong start room path current) := by
  induction room generalizing path current with
  | zero =>
    have hlength := (List.subperm_of_subset hnodup hsub).length_le
    omega
  | succ room ih =>
    have hcells : ∀ next ∈ g.targets current, next ∈ g.ids := fun next hnext =>
      (hg current next (mem_targets_iff.mp hnext)).2
    rw [cyclesAlong]
    -- the cells still to be entered are any rest of the targets
    generalize g.targets current = nexts at hcells
    induction nexts with
    | nil => exact .done
    | cons next rest ihrest =>
      have hrest := ihrest fun v hv => hcells v (List.mem_cons_of_mem next hv)
      rw [List.flatMap_cons]
      split
      · next heq =>
        subst heq
        exact .close hrest
      · next hne =>
        split
        · next hopen =>
          refine .enter hne hopen (ih ?_ ?_ ?_) hrest
          · exact hnodup.append (List.nodup_singleton next)
              (List.disjoint_singleton.mpr hopen.2)
          · intro v hv
            rcases List.mem_append.mp hv with hv | hv
            · exact hsub v hv
            · exact List.mem_singleton.mp hv ▸ hcells next List.mem_cons_self
          · rw [List.length_append, List.length_singleton]
            omega
        · next hopen => exact .skip hne hopen hrest

theorem explores_iff (hg : g.IsClosed) (hstart : start ∈ g.ids) {found : List (List CellId)} :
    Explores g start [start] (g.targets start) found ↔ found = g.cyclesFrom start := by
  have hends : Explores g start [start] (g.targets start) (g.cyclesFrom start) :=
    explores_cyclesAlong hg (List.nodup_singleton start)
      (fun _ hv => List.mem_singleton.mp hv ▸ hstart) (Nat.lt_succ_self _)
  exact ⟨fun h => h.unique hends, fun h => h ▸ hends⟩

/-! ## Elementary cycles -/

theorem forall_mem_zip_iff {α : Type} {r : α → α → Prop} {a b : α} {l : List α} :
    (∀ p ∈ (a :: l).zip (l ++ [b]), r p.1 p.2) ↔ List.IsChain r (a :: (l ++ [b])) := by
  induction l generalizing a with
  | nil => simp
  | cons c rest ih =>
    rw [List.cons_append, List.isChain_cons_cons, ← ih, List.zip_cons_cons, List.forall_mem_cons]

theorem isCycle_cons_iff {first : CellId} {rest : List CellId} :
    g.IsCycle (first :: rest) ↔
      (first :: rest).Nodup ∧ List.IsChain g.Feeds (first :: (rest ++ [first])) := by
  have hhops : hops (first :: rest) = (first :: rest).zip (rest ++ [first]) := rfl
  constructor
  · rintro ⟨_, hnodup, hfeeds⟩
    exact ⟨hnodup, forall_mem_zip_iff.mp (hhops ▸ hfeeds)⟩
  · rintro ⟨hnodup, hchain⟩
    exact ⟨List.cons_ne_nil _ _, hnodup, hhops ▸ forall_mem_zip_iff.mpr hchain⟩

theorem isCycle_of_mem_cycles (hg : g.IsClosed) {cycle : List CellId} (h : cycle ∈ g.cycles) :
    g.IsCycle cycle ∧ ∃ start more, cycle = start :: more ∧ ∀ v ∈ more, g.IsLater v start := by
  obtain ⟨start, more, rfl, hnodup, hlater, hchain⟩ := (mem_cycles_iff hg).mp h
  exact ⟨isCycle_cons_iff.mpr ⟨hnodup, hchain⟩, start, more, rfl, hlater⟩

theorem nodup_cycles (hg : g.IsClosed) (hn : g.ids.Nodup) : g.cycles.Nodup :=
  cycles_eq_foundCycles hg hn ▸ nodup_foundCycles hg hn

theorem countP_isRotated (hg : g.IsClosed) (hn : g.ids.Nodup) {cycle : List CellId}
    (h : g.IsCycle cycle) : (g.cycles.countP fun c => decide (c.IsRotated cycle)) = 1 := by
  obtain ⟨c, hc, hrot⟩ : ∃ c ∈ g.cycles, c.IsRotated cycle := by
    cases cycle with
    | nil => exact absurd rfl h.ne_nil
    | cons first rest =>
      obtain ⟨hnodup, hchain⟩ := isCycle_cons_iff.mp h
      exact exists_isRotated_mem_cycles hg hnodup hchain
  have hsame : ∀ d ∈ g.cycles, decide (d.IsRotated cycle) = true ↔ (d == c) = true := by
    intro d hd
    rw [decide_eq_true_iff, beq_iff_eq]
    constructor
    · intro hd'
      exact eq_of_isRotated hg ((mem_cycles_iff_mem_foundCycles hg).mp hd)
        ((mem_cycles_iff_mem_foundCycles hg).mp hc) (hd'.trans hrot.symm)
    · rintro rfl
      exact hrot
  rw [List.countP_congr hsame]
  exact List.count_eq_one_of_mem (nodup_cycles hg hn) hc

/-- The search for cycles ends by itself. What it reports are elementary cycles, written from the
member that the graph lists first, and every elementary cycle is among them exactly once up to
rotation. The canonical forms are all different, so none of the cycles met is passed over. -/
theorem cycles_reported_once (cells : List Interface) :
    let g := ofInterfaces cells
    (∀ start ∈ g.ids, ∀ found, Explores g start [start] (g.targets start) found ↔
      found = g.cyclesFrom start) ∧
    (∀ cycle ∈ g.cycles, g.IsCycle cycle ∧
      ∃ start more, cycle = start :: more ∧ ∀ v ∈ more, g.IsLater v start) ∧
    (∀ cycle, g.IsCycle cycle → (g.cycles.countP fun c => decide (c.IsRotated cycle)) = 1) ∧
    (g.foundCycles.map canonical).Nodup ∧ g.cycles = g.foundCycles := by
  intro g
  have hg : g.IsClosed := isClosed_ofInterfaces cells
  have hn : g.ids.Nodup := nodup_ids_ofInterfaces cells
  exact ⟨fun _ hstart _ => explores_iff hg hstart, fun _ hc => isCycle_of_mem_cycles hg hc,
    fun _ hc => countP_isRotated hg hn hc, nodup_map_canonical hg hn, cycles_eq_foundCycles hg hn⟩

/-- Four cells on four cycles that share cells, with two arcs from the first cell to the second. -/
def sharedCycles : List Interface := [
  ⟨⟨0⟩, [Link.same "b", Link.same "d"], [Link.same "a", Link.same "a"]⟩,
  ⟨⟨1⟩, [Link.same "a", Link.same "c"], [Link.same "b"]⟩,
  ⟨⟨2⟩, [Link.same "a"], [Link.same "c"]⟩, ⟨⟨3⟩, [Link.same "b"], [Link.same "d"]⟩]

/-- The cycle of the first, the second and the last cell is reported once, written from the first. -/
theorem cycles_reported_once_shared :
    let g := ofInterfaces sharedCycles
    Explores g ⟨0⟩ [⟨0⟩] (g.targets ⟨0⟩)
        [[⟨0⟩, ⟨1⟩], [⟨0⟩, ⟨1⟩, ⟨3⟩], [⟨0⟩, ⟨2⟩, ⟨1⟩], [⟨0⟩, ⟨2⟩, ⟨1⟩, ⟨3⟩]] ∧
      g.IsCycle [⟨3⟩, ⟨0⟩, ⟨1⟩] ∧ [⟨3⟩, ⟨0⟩, ⟨1⟩] ∉ g.cycles ∧
      (g.cycles.countP fun c => decide (c.IsRotated [⟨3⟩, ⟨0⟩, ⟨1⟩])) = 1 := by
  intro g
  obtain ⟨hends, _, honce, _⟩ := cycles_reported_once sharedCycles
  have hcycle : g.IsCycle [⟨3⟩, ⟨0⟩, ⟨1⟩] := ⟨by decide, by decide, by decide +kernel⟩
  exact ⟨(hends ⟨0⟩ (by decide +kernel) _).mpr (by decide +kernel), hcycle, by decide +kernel,
    honce _ hcycle⟩

end Graph

end Recalc
