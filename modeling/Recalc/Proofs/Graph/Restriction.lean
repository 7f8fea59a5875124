import Mathlib.Data.List.Nodup
import Recalc.Proofs.Graph.Order

/-!
# Parts of a graph

A graph is local: the graph of some of the cells is the part of the whole graph that lies among
them, in the same order (`ofInterfaces_filter`). What can be read off a part is therefore the same in
any two graphs that agree on it, and an edit of one cell moves nothing among the others
(`edit_stays_local`).
-/

namespace Recalc

/-- Induction along the removal of duplicates, which goes on without the copies of the first member. -/
theorem eraseDups_induction {α : Type} [BEq α] {motive : List α → Prop} (nil : motive [])
    (cons : ∀ a rest, motive (rest.filter fun b => !b == a) → motive (a :: rest)) (l : List α) :
    motive l := by
  induction hn : l.length using Nat.strongRecOn generalizing l with
  | ind n ih =>
    cases l with
    | nil => exact nil
    | cons a rest =>
      refine cons a rest (ih _ ?_ _ rfl)
      rw [← hn, List.length_cons]
      exact Nat.lt_succ_of_le (List.length_filter_le _ rest)

theorem filter_eraseDups {α : Type} [BEq α] [LawfulBEq α] (p : α → Bool) (l : List α) :
    l.eraseDups.filter p = (l.filter p).eraseDups := by
  induction l using eraseDups_induction with
  | nil => rfl
  | cons a rest ih =>
    rw [List.eraseDups_cons]
    by_cases ha : p a = true
    · rw [List.filter_cons_of_pos ha, List.filter_cons_of_pos ha, List.eraseDups_cons, ih,
        List.filter_comm]
    · rw [List.filter_cons_of_neg ha, List.filter_cons_of_neg ha, ih, List.filter_filter]
      congr 1
      apply List.filter_congr
      intro b _
      by_cases hb : b = a
      · simp [hb, ha]
      · simp [hb]

theorem nodup_eraseDups {α : Type} [BEq α] [LawfulBEq α] (l : List α) : l.eraseDups.Nodup := by
  induction l using eraseDups_induction with
  | nil => exact List.nodup_nil
  | cons a rest ih =>
    rw [List.eraseDups_cons, List.nodup_cons]
    exact ⟨by simp, ih⟩

theorem eraseDups_of_nodup {α : Type} [BEq α] [LawfulBEq α] {l : List α} (h : l.Nodup) :
    l.eraseDups = l := by
  induction l with
  | nil => rfl
  | cons a rest ih =>
    obtain ⟨ha, hrest⟩ := List.nodup_cons.mp h
    have hfilter : (rest.filter fun b => !b == a) = rest := by
      refine List.filter_eq_self.mpr fun b hb => ?_
      have hba : b ≠ a := fun he => ha (he ▸ hb)
      simpa using hba
    rw [List.eraseDups_cons, hfilter, ih hrest]

theorem idxOf_filter_lt_iff {α : Type} [BEq α] [LawfulBEq α] {p : α → Bool} {a b : α}
    (ha : p a = true) (hb : p b = true) (l : List α) :
    (l.filter p).idxOf a < (l.filter p).idxOf b ↔ l.idxOf a < l.idxOf b := by
  induction l with
  | nil => rfl
  | cons c rest ih =>
    by_cases hc : p c = true
    · rw [List.filter_cons_of_pos hc]
      by_cases hca : c = a <;> by_cases hcb : c = b <;> grind
    · have hca : c ≠ a := fun he => hc (he ▸ ha)
      have hcb : c ≠ b := fun he => hc (he ▸ hb)
      rw [List.filter_cons_of_neg hc, ih, List.idxOf_cons_ne rest hca, List.idxOf_cons_ne rest hcb]
      exact (Nat.succ_lt_succ_iff).symm

theorem flatMap_ite {α β : Type} (p : α → Bool) (f : α → List β) (l : List α) :
    (l.flatMap fun a => if p a = true then f a else []) = (l.filter p).flatMap f := by
  induction l with
  | nil => rfl
  | cons a rest ih => by_cases ha : p a = true <;> simp [ha, ih]

theorem length_filter_append_lt {α : Type} [DecidableEq α] {l path more : List α} {a : α}
    (hl : a ∈ l) (hpath : a ∉ path) (hmore : a ∈ more) :
    (l.filter fun b => decide (b ∉ path ++ more)).length <
      (l.filter fun b => decide (b ∉ path)).length := by
  have hsplit : (l.filter fun b => decide (b ∉ path ++ more)) =
      (l.filter fun b => decide (b ∉ path)).filter fun b => decide (b ∉ more) := by
    rw [List.filter_filter]
    exact List.filter_congr fun b _ => by simp [Bool.and_comm]
  rw [hsplit]
  exact List.length_filter_lt_length_iff_exists.mpr ⟨a, by simp [hl, hpath], by simp [hmore]⟩

theorem exists_replace_eq {α : Type} [BEq α] [LawfulBEq α] {a : α} {l : List α} (ha : a ∈ l)
    (b : α) : ∃ before after, l = before ++ a :: after ∧ l.replace a b = before ++ b :: after := by
  obtain ⟨before, after, rfl, hbefore⟩ := List.eq_append_cons_of_mem ha
  refine ⟨before, after, rfl, ?_⟩
  rw [List.replace_append_right hbefore, List.replace_cons_self]

namespace Graph

theorem nodup_ids_ofInterfaces (cells : List Interface) : (ofInterfaces cells).ids.Nodup :=
  nodup_eraseDups _

/-- The part of a graph among the cells that are kept. -/
def restrict (g : Graph) (keep : CellId → Bool) : Graph where
  ids := g.ids.filter keep
  arcs := g.arcs.filter fun a => keep a.source && keep a.target

variable {g : Graph} {keep : CellId → Bool}

theorem feeds_restrict_iff {u v : CellId} :
    (g.restrict keep).Feeds u v ↔ g.Feeds u v ∧ keep u = true ∧ keep v = true := by
  simp only [Feeds, restrict, List.mem_filter, Bool.and_eq_true]
  constructor
  · rintro ⟨a, ⟨ha, hs, ht⟩, rfl, rfl⟩
    exact ⟨⟨a, ha, rfl, rfl⟩, hs, ht⟩
  · rintro ⟨⟨a, ha, rfl, rfl⟩, hs, ht⟩
    exact ⟨a, ⟨ha, hs, ht⟩, rfl, rfl⟩

theorem IsClosed.restrict (hg : g.IsClosed) : (g.restrict keep).IsClosed := by
  intro u v h
  obtain ⟨h, hu, hv⟩ := feeds_restrict_iff.mp h
  obtain ⟨hug, hvg⟩ := hg u v h
  exact ⟨List.mem_filter.mpr ⟨hug, hu⟩, List.mem_filter.mpr ⟨hvg, hv⟩⟩

/-- Of the arcs at a kept cell those stay whose far end is kept. -/
theorem filter_arcs_restrict {near far : Arc → CellId} {v : CellId} (hv : keep v = true)
    (hends : ∀ a, (keep a.source && keep a.target) = (keep (near a) && keep (far a))) :
    ((g.restrict keep).arcs.filter fun a => near a == v) =
      (g.arcs.filter fun a => near a == v).filter fun a => keep (far a) := by
  rw [restrict, List.filter_filter, List.filter_filter]
  refine List.filter_congr fun a _ => ?_
  rw [hends]
  by_cases ha : near a = v
  · rw [ha, hv, beq_self_eq_true, Bool.true_and, Bool.true_and, Bool.and_true]
  · rw [beq_false_of_ne ha, Bool.false_and, Bool.and_false]

theorem inputs_restrict {v : CellId} (hv : keep v = true) :
    (g.restrict keep).inputs v = (g.inputs v).filter fun p => keep p.1 := by
  rw [inputs, filter_arcs_restrict hv fun a => Bool.and_comm (keep a.source) (keep a.target),
    inputs, List.filter_map]
  rfl

theorem outputs_restrict {v : CellId} (hv : keep v = true) :
    (g.restrict keep).outputs v = (g.outputs v).filter fun p => keep p.1 := by
  rw [outputs, filter_arcs_restrict hv fun _ => rfl, outputs, List.filter_map]
  rfl

theorem targets_restrict {v : CellId} (hv : keep v = true) :
    (g.restrict keep).targets v = (g.targets v).filter keep := by
  rw [targets, targets, outputs_restrict hv, filter_eraseDups, List.filter_map]
  rfl

theorem inputs_restrict_of_feeds {v : CellId} (hv : keep v = true)
    (hfeeds : ∀ u, g.Feeds u v → keep u = true) :
    (g.restrict keep).inputs v = g.inputs v := by
  rw [inputs_restrict hv]
  refine List.filter_eq_self.mpr fun p hp => ?_
  exact hfeeds p.1 ⟨_, mem_inputs_iff.mp hp, rfl, rfl⟩

theorem filter_arcs {arcs : List Arc} {producer id : CellId}
    (h : ∀ a ∈ arcs, a.source = producer ∧ a.target = id) :
    (arcs.filter fun a => keep a.source && keep a.target) =
      if keep id = true then (if keep producer = true then arcs else []) else [] := by
  split
  · next hid =>
    split
    · next hp => exact List.filter_eq_self.mpr fun a ha => by simp [h a ha, hid, hp]
    · next hp => exact List.filter_eq_nil_iff.mpr fun a ha => by simp [h a ha, hp]
  · next hid => exact List.filter_eq_nil_iff.mpr fun a ha => by simp [h a ha, hid]

theorem filter_readerArcs (producer : CellId) (e : Link) (c : Interface) :
    ((readerArcs producer e c).filter fun a => keep a.source && keep a.target) =
      if keep c.id = true then (if keep producer = true then readerArcs producer e c else [])
      else [] := by
  refine filter_arcs fun a ha => ?_
  obtain ⟨_, _, _, rfl⟩ := mem_readerArcs_iff.mp ha
  exact ⟨rfl, rfl⟩

theorem filter_rivalArcs (producer : CellId) (e : Link) (c : Interface) :
    ((rivalArcs producer e c).filter fun a => keep a.source && keep a.target) =
      if keep c.id = true then (if keep producer = true then rivalArcs producer e c else [])
      else [] := by
  refine filter_arcs fun a ha => ?_
  obtain ⟨_, rfl⟩ := mem_rivalArcs_iff.mp ha
  exact ⟨rfl, rfl⟩

theorem filter_exportArcs (cells : List Interface) {producer : CellId}
    (hp : keep producer = true) (e : Link) :
    ((exportArcs cells producer e).filter fun a => keep a.source && keep a.target) =
      exportArcs (cells.filter fun c => keep c.id) producer e := by
  simp only [exportArcs, List.filter_append, List.filter_flatMap, filter_readerArcs, hp, if_true,
    flatMap_ite fun c : Interface => keep c.id]
  congr 1
  split
  · rfl
  · simp only [List.filter_flatMap, filter_rivalArcs, hp, if_true,
      flatMap_ite fun c : Interface => keep c.id]

theorem source_of_mem_arcsFrom {cells : List Interface} {p : Interface} {a : Arc}
    (ha : a ∈ arcsFrom cells p) : a.source = p.id := by
  obtain ⟨e, _, ha⟩ := List.mem_flatMap.mp ha
  cases List.mem_append.mp ha with
  | inl ha =>
    obtain ⟨c, _, ha⟩ := List.mem_flatMap.mp ha
    obtain ⟨_, _, _, rfl⟩ := mem_readerArcs_iff.mp ha
    rfl
  | inr ha =>
    split at ha
    · exact absurd ha List.not_mem_nil
    · obtain ⟨c, _, ha⟩ := List.mem_flatMap.mp ha
      obtain ⟨_, rfl⟩ := mem_rivalArcs_iff.mp ha
      rfl

theorem filter_arcsFrom (cells : List Interface) (p : Interface) :
    ((arcsFrom cells p).filter fun a => keep a.source && keep a.target) =
      if keep p.id = true then arcsFrom (cells.filter fun c => keep c.id) p else [] := by
  split
  · next hp => simp only [arcsFrom, List.filter_flatMap, filter_exportArcs cells hp]
  · next hp =>
    refine List.filter_eq_nil_iff.mpr fun a ha => ?_
    simp [source_of_mem_arcsFrom ha, hp]

/-- The graph of the cells that are kept is the part of the graph among them. -/
theorem ofInterfaces_filter (cells : List Interface) (keep : CellId → Bool) :
    ofInterfaces (cells.filter fun c => keep c.id) = (ofInterfaces cells).restrict keep := by
  rw [restrict, ofInterfaces, ofInterfaces, Graph.mk.injEq]
  constructor
  · rw [filter_eraseDups, List.filter_map]
    rfl
  · simp only [List.filter_flatMap, filter_arcsFrom, flatMap_ite fun c : Interface => keep c.id]

/-! ## Editing a cell -/

theorem restrict_ofInterfaces_congr {cells others : List Interface}
    (h : (cells.filter fun c => keep c.id) = others.filter fun c => keep c.id) :
    (ofInterfaces cells).restrict keep = (ofInterfaces others).restrict keep := by
  rw [← ofInterfaces_filter, h, ofInterfaces_filter]

theorem erase_eq_filter_id {cells : List Interface} (hids : (cells.map Interface.id).Nodup)
    {a : Interface} (ha : a ∈ cells) : cells.erase a = cells.filter fun c => c.id != a.id := by
  rw [hids.of_map.erase_eq_filter]
  refine List.filter_congr fun c hc => ?_
  have hca : c = a ↔ c.id = a.id := ⟨congrArg Interface.id, List.inj_on_of_nodup_map hids hc ha⟩
  rw [Bool.eq_iff_iff, bne_iff_ne, bne_iff_ne, ne_eq, ne_eq, hca]

/-- Without one of its cells a graph keeps the other cells and, for each of them, all entries but those
that name the cell, in the same order. If the cell imports and exports something else instead, the
cells stay, and so do all entries between two others and their order. -/
theorem edit_stays_local {cells : List Interface} (hids : (cells.map Interface.id).Nodup)
    {a : Interface} (ha : a ∈ cells) :
    let g := ofInterfaces cells
    let without := ofInterfaces (cells.erase a)
    let other : CellId → Bool := fun id => id != a.id
    (without.ids = g.ids.filter other ∧ without = g.restrict other ∧
      ∀ v, v ≠ a.id → without.inputs v = (g.inputs v).filter (fun p => other p.1) ∧
        without.outputs v = (g.outputs v).filter fun p => other p.1) ∧
    ∀ imports exports,
      let changed := ofInterfaces (cells.replace a ⟨a.id, imports, exports⟩)
      changed.ids = g.ids ∧ changed.restrict other = g.restrict other ∧
        ∀ v, v ≠ a.id →
          (changed.inputs v).filter (fun p => other p.1) =
            (g.inputs v).filter (fun p => other p.1) ∧
          (changed.outputs v).filter (fun p => other p.1) =
            (g.outputs v).filter fun p => other p.1 := by
  intro g without other
  have hself : other a.id = false := by simp [other]
  have hother : ∀ {v}, v ≠ a.id → other v = true := fun hv => bne_iff_ne.mpr hv
  have hwithout : without = g.restrict other :=
    (congrArg ofInterfaces (erase_eq_filter_id hids ha)).trans (ofInterfaces_filter cells other)
  constructor
  · refine ⟨congrArg Graph.ids hwithout, hwithout, fun v hv => ?_⟩
    rw [hwithout]
    exact ⟨inputs_restrict (hother hv), outputs_restrict (hother hv)⟩
  · intro imports exports changed
    obtain ⟨before, after, hcells, hreplace⟩ := exists_replace_eq ha ⟨a.id, imports, exports⟩
    have hsame : (cells.replace a ⟨a.id, imports, exports⟩).map Interface.id =
        cells.map Interface.id := by
      rw [hreplace, hcells]
      simp
    have hchanged : changed.restrict other = g.restrict other := by
      refine restrict_ofInterfaces_congr ?_
      rw [hreplace, hcells]
      simp [hself]
    refine ⟨congrArg List.eraseDups hsame, hchanged, fun v hv => ?_⟩
    rw [← inputs_restrict (hother hv), ← inputs_restrict (hother hv),
      ← outputs_restrict (hother hv), ← outputs_restrict (hother hv), hchanged]
    exact ⟨rfl, rfl⟩

/-- A rival that also reads itself is deleted, and then made a reader of both names. The reader between
the rivals keeps its entry from the first of them. -/
theorem edit_stays_local_rivals :
    let rival : Interface := ⟨⟨2⟩, [Link.same "x"], [Link.same "x"]⟩
    let cells : List Interface := [⟨⟨0⟩, [], [Link.same "x"]⟩,
      ⟨⟨1⟩, [Link.same "x"], [Link.same "y"]⟩, rival]
    let changed := cells.replace rival ⟨⟨2⟩, [Link.same "y", Link.same "x"], []⟩
    (cells.map Interface.id).Nodup ∧ rival ∈ cells ∧
      (ofInterfaces cells).inputs ⟨1⟩ = [(⟨0⟩, Link.same "x"), (⟨2⟩, Link.same "x")] ∧
      (ofInterfaces (cells.erase rival)).inputs ⟨1⟩ = [(⟨0⟩, Link.same "x")] ∧
      ((ofInterfaces changed).inputs ⟨1⟩).filter (fun p => p.1 != ⟨2⟩) =
        [(⟨0⟩, Link.same "x")] := by
  intro rival cells changed
  have hids : (cells.map Interface.id).Nodup := by decide
  have hmem : rival ∈ cells := by decide
  have hinputs : (ofInterfaces cells).inputs ⟨1⟩ =
      [(⟨0⟩, Link.same "x"), (⟨2⟩, Link.same "x")] := by decide +kernel
  obtain ⟨⟨_, _, hwithout⟩, hchanged⟩ := edit_stays_local hids hmem
  refine ⟨hids, hmem, hinputs, (hwithout ⟨1⟩ (by decide)).1.trans ?_,
    ((hchanged _ _).2.2 ⟨1⟩ (by decide)).1.trans ?_⟩
  · rw [hinputs]
    rfl
  · rw [hinputs]
    rfl

end Graph

end Recalc
