import Mathlib.Data.Finset.Max
import Mathlib.Data.List.Chain
import Mathlib.Data.List.Cycle
import Recalc.Graph.Cycle
import Recalc.Proofs.Graph.Restriction

/-!
# The cycles of a graph

The search finds exactly the elementary cycles, each written from the member listed first
(`mem_cycles_iff`). No two of them have one canonical form, so all that are found are reported
(`cycles_eq_foundCycles`). A cell lies on one of them if and only if a walk along the arcs leads from
the cell back to it (`exists_mem_cycles_iff`).

A cycle stays within one group of cells that feed each other. So the cycles through a cell, and their
order, depend only on the part of the graph that holds its group (`filter_cycles_restrict`).
-/

namespace Recalc

open Relation

theorem transGen_of_isChain {α : Type} {r : α → α → Prop} {a b : α} {l : List α}
    (h : List.IsChain r (a :: (l ++ [b]))) : TransGen r a b := by
  induction l generalizing a with
  | nil => exact .single (by simpa using h)
  | cons c rest ih =>
    rw [List.cons_append, List.isChain_cons_cons] at h
    exact .head h.1 (ih h.2)

/-- A walk can be shortened to one that meets no place twice. -/
theorem exists_nodup_isChain {α : Type} {r : α → α → Prop} {a b : α} (h : ReflTransGen r a b) :
    ∃ l, (a :: l).Nodup ∧ List.IsChain r (a :: l) ∧ (a :: l).getLast? = some b := by
  induction h using ReflTransGen.head_induction_on with
  | refl => exact ⟨[], by simp, by simp, rfl⟩
  | @head a c hac _ ih =>
    obtain ⟨l, hnodup, hchain, hlast⟩ := ih
    by_cases ha : a ∈ c :: l
    · obtain ⟨before, after, heq⟩ := List.append_of_mem ha
      rw [heq] at hnodup hchain hlast
      refine ⟨after, (List.nodup_append.mp hnodup).2.1, (List.isChain_append.mp hchain).2.1, ?_⟩
      simpa using hlast
    · exact ⟨c :: l, List.nodup_cons.mpr ⟨ha, hnodup⟩, List.isChain_cons_cons.mpr ⟨hac, hchain⟩,
        by simpa using hlast⟩

namespace Graph

variable {g : Graph}

theorem mem_cyclesAlong_iff {start current : CellId} {room : Nat} {path cycle : List CellId}
    (hstart : start ∈ path) :
    cycle ∈ g.cyclesAlong start room path current ↔
      ∃ more, cycle = path ++ more ∧ more.length < room ∧ more.Nodup ∧
        (∀ v ∈ more, v ∉ path ∧ g.IsLater v start) ∧
        List.IsChain g.Feeds (current :: (more ++ [start])) := by
  induction room generalizing path current with
  | zero => simp [cyclesAlong]
  | succ room ih =>
    rw [cyclesAlong, List.mem_flatMap]
    constructor
    · rintro ⟨next, hnext, hcycle⟩
      rw [mem_targets_iff] at hnext
      split at hcycle
      · next he =>
        subst he
        refine ⟨[], by simpa using hcycle, by simp, by simp, by simp, by simpa using hnext⟩
      · split at hcycle
        · next hlater =>
          obtain ⟨more, rfl, hlen, hnodup, hmore, hchain⟩ :=
            (ih (List.mem_append_left _ hstart)).mp hcycle
          refine ⟨next :: more, by simp, by simpa using hlen, ?_, ?_, ?_⟩
          · refine List.nodup_cons.mpr ⟨fun hm => ?_, hnodup⟩
            exact (hmore next hm).1 (by simp)
          · intro v hv
            rcases List.mem_cons.mp hv with rfl | hv
            · exact ⟨hlater.2, hlater.1⟩
            · exact ⟨fun hp => (hmore v hv).1 (List.mem_append_left _ hp), (hmore v hv).2⟩
          · exact List.isChain_cons_cons.mpr ⟨hnext, hchain⟩
        · exact absurd hcycle List.not_mem_nil
    · rintro ⟨more, rfl, hlen, hnodup, hmore, hchain⟩
      cases more with
      | nil =>
        refine ⟨start, mem_targets_iff.mpr (by simpa using hchain), ?_⟩
        simp
      | cons next more =>
        rw [List.cons_append, List.isChain_cons_cons] at hchain
        obtain ⟨hnew, hnodup⟩ := List.nodup_cons.mp hnodup
        obtain ⟨hpath, hlater⟩ := hmore next List.mem_cons_self
        have hne : next ≠ start := fun he => hpath (he ▸ hstart)
        refine ⟨next, mem_targets_iff.mpr hchain.1, ?_⟩
        rw [if_neg hne, if_pos ⟨hlater, hpath⟩, ih (List.mem_append_left _ hstart)]
        refine ⟨more, by simp, by simpa using hlen, hnodup, fun v hv => ⟨fun hp => ?_, ?_⟩,
          hchain.2⟩
        · cases List.mem_append.mp hp with
          | inl hp => exact (hmore v (List.mem_cons_of_mem _ hv)).1 hp
          | inr hp => exact hnew (List.mem_singleton.mp hp ▸ hv)
        · exact (hmore v (List.mem_cons_of_mem _ hv)).2

theorem mem_ids_of_isChain (hg : g.IsClosed) {a b v : CellId} {l : List CellId}
    (h : List.IsChain g.Feeds (a :: (l ++ [b]))) (hv : v ∈ a :: l) : v ∈ g.ids := by
  induction l generalizing a with
  | nil =>
    rw [List.mem_singleton.mp hv]
    exact (hg a b (by simpa using h)).1
  | cons c rest ih =>
    rw [List.cons_append, List.isChain_cons_cons] at h
    rcases List.mem_cons.mp hv with rfl | hv
    · exact (hg v c h.1).1
    · exact ih h.2 hv

theorem mem_cyclesFrom_iff (hg : g.IsClosed) {start : CellId} {cycle : List CellId} :
    cycle ∈ g.cyclesFrom start ↔
      ∃ more, cycle = start :: more ∧ (start :: more).Nodup ∧ (∀ v ∈ more, g.IsLater v start) ∧
        List.IsChain g.Feeds (start :: (more ++ [start])) := by
  rw [cyclesFrom, mem_cyclesAlong_iff (List.mem_singleton_self start)]
  constructor
  · rintro ⟨more, rfl, _, hnodup, hmore, hchain⟩
    refine ⟨more, rfl, List.nodup_cons.mpr ⟨fun hm => ?_, hnodup⟩, fun v hv => (hmore v hv).2,
      hchain⟩
    exact (hmore start hm).1 (List.mem_singleton_self start)
  · rintro ⟨more, rfl, hnodup, hmore, hchain⟩
    obtain ⟨hnew, hrest⟩ := List.nodup_cons.mp hnodup
    have hsub : (start :: more).Subperm g.ids :=
      List.subperm_of_subset hnodup fun v hv => mem_ids_of_isChain hg hchain hv
    refine ⟨more, rfl, ?_, hrest, fun v hv => ⟨fun he => ?_, hmore v hv⟩, hchain⟩
    · exact hsub.length_le
    · exact hnew (List.mem_singleton.mp he ▸ hv)

theorem mem_foundCycles_iff (hg : g.IsClosed) {cycle : List CellId} :
    cycle ∈ g.foundCycles ↔
      ∃ start more, cycle = start :: more ∧ (start :: more).Nodup ∧
        (∀ v ∈ more, g.IsLater v start) ∧ List.IsChain g.Feeds (start :: (more ++ [start])) := by
  rw [foundCycles, List.mem_flatMap]
  constructor
  · rintro ⟨start, _, hcycle⟩
    obtain ⟨more, h⟩ := (mem_cyclesFrom_iff hg).mp hcycle
    exact ⟨start, more, h⟩
  · rintro ⟨start, more, rfl, hnodup, hlater, hchain⟩
    exact ⟨start, mem_ids_of_isChain hg hchain List.mem_cons_self,
      (mem_cyclesFrom_iff hg).mpr ⟨more, rfl, hnodup, hlater, hchain⟩⟩

/-! ## Canonical forms -/

theorem isRotated_rotateTo (start : CellId) (cycle : List CellId) :
    (rotateTo start cycle).IsRotated cycle := by
  have h : (rotateTo start cycle).IsRotated
      (cycle.takeWhile (· ≠ start) ++ cycle.dropWhile (· ≠ start)) := List.isRotated_append
  rwa [List.takeWhile_append_dropWhile] at h

theorem isRotated_canonical (cycle : List CellId) : (canonical cycle).IsRotated cycle := by
  rw [canonical]
  split
  · next h =>
    rw [List.min?_eq_none_iff, List.map_eq_nil_iff] at h
    rw [h]
  · exact isRotated_rotateTo _ cycle

theorem eq_of_isRotated_cons {a : CellId} {l m : List CellId} (hnodup : (a :: l).Nodup)
    (h : (a :: l).IsRotated (a :: m)) : a :: l = a :: m := by
  obtain ⟨n, hn, hrotate⟩ := List.isRotated_iff_mod.mp h
  rw [List.rotate_eq_drop_append_take hn] at hrotate
  have hsplit : (a :: l).take n ++ (a :: l).drop n = a :: l := List.take_append_drop n _
  generalize (a :: l).take n = front at hsplit hrotate
  generalize (a :: l).drop n = back at hsplit hrotate
  cases front with
  | nil => exact hsplit.symm.trans ((List.append_nil back).symm.trans hrotate)
  | cons b front =>
    obtain ⟨rfl, rfl⟩ := List.cons.inj hsplit
    cases back with
    | nil => exact ((List.append_nil _).symm.trans hsplit).symm.trans hrotate
    | cons c back =>
      obtain ⟨rfl, _⟩ := List.cons.inj hrotate
      exact absurd (by simp) (List.nodup_cons.mp hnodup).1

/-- The search writes a cycle in one way only. -/
theorem eq_of_isRotated (hg : g.IsClosed) {c d : List CellId} (hc : c ∈ g.foundCycles)
    (hd : d ∈ g.foundCycles) (h : c.IsRotated d) : c = d := by
  obtain ⟨a, l, rfl, hnodup, hlater, _⟩ := (mem_foundCycles_iff hg).mp hc
  obtain ⟨b, m, rfl, _, hlater', _⟩ := (mem_foundCycles_iff hg).mp hd
  have hb : b ∈ a :: l := h.perm.mem_iff.mpr List.mem_cons_self
  have ha : a ∈ b :: m := h.perm.mem_iff.mp List.mem_cons_self
  rcases List.mem_cons.mp hb with rfl | hb
  · exact eq_of_isRotated_cons hnodup h
  · rcases List.mem_cons.mp ha with rfl | ha
    · exact eq_of_isRotated_cons hnodup h
    · exact absurd (hlater b hb) (Nat.lt_asymm (hlater' a ha))

theorem eq_of_canonical_eq (hg : g.IsClosed) {c d : List CellId} (hc : c ∈ g.foundCycles)
    (hd : d ∈ g.foundCycles) (h : canonical c = canonical d) : c = d :=
  eq_of_isRotated hg hc hd ((isRotated_canonical c).symm.trans (h ▸ isRotated_canonical d))

theorem keepFirst_sublist (seen found : List (List CellId)) :
    (keepFirst seen found).Sublist found := by
  induction found generalizing seen with
  | nil => exact .slnil
  | cons cycle rest ih =>
    rw [keepFirst]
    split
    · exact (ih seen).cons cycle
    · exact (ih _).cons_cons cycle

/-- A cycle is passed over only if its canonical form has come before. -/
theorem exists_mem_keepFirst (seen : List (List CellId)) {found : List (List CellId)}
    {cycle : List CellId} (h : cycle ∈ found) :
    canonical cycle ∈ seen ∨ ∃ c ∈ keepFirst seen found, canonical c = canonical cycle := by
  induction found generalizing seen with
  | nil => cases h
  | cons first rest ih =>
    rw [keepFirst]
    split
    · next hseen =>
      rcases List.mem_cons.mp h with rfl | h
      · exact Or.inl hseen
      · exact ih seen h
    · rcases List.mem_cons.mp h with rfl | h
      · exact Or.inr ⟨_, List.mem_cons_self, rfl⟩
      · rcases ih (canonical first :: seen) h with hmem | ⟨c, hc, heq⟩
        · rcases List.mem_cons.mp hmem with heq | hmem
          · exact Or.inr ⟨first, List.mem_cons_self, heq.symm⟩
          · exact Or.inl hmem
        · exact Or.inr ⟨c, List.mem_cons_of_mem _ hc, heq⟩

theorem keepFirst_eq_self {seen found : List (List CellId)} (hnodup : (found.map canonical).Nodup)
    (hnew : ∀ c ∈ found, canonical c ∉ seen) : keepFirst seen found = found := by
  induction found generalizing seen with
  | nil => rfl
  | cons first rest ih =>
    obtain ⟨hfirst, hrest⟩ := List.nodup_cons.mp hnodup
    rw [keepFirst, if_neg (hnew first List.mem_cons_self), ih hrest]
    intro c hc hmem
    rcases List.mem_cons.mp hmem with heq | hmem
    · exact hfirst (heq ▸ List.mem_map_of_mem hc)
    · exact hnew c (List.mem_cons_of_mem first hc) hmem

theorem mem_cycles_iff_mem_foundCycles (hg : g.IsClosed) {cycle : List CellId} :
    cycle ∈ g.cycles ↔ cycle ∈ g.foundCycles := by
  refine ⟨fun h => (keepFirst_sublist [] _).subset h, fun h => ?_⟩
  rcases exists_mem_keepFirst [] h with hnil | ⟨c, hc, heq⟩
  · cases hnil
  · rwa [← eq_of_canonical_eq hg ((keepFirst_sublist [] _).subset hc) h heq]

/-- The cycles reported are those with an arc from each member to the next and from the last to the
first, written from the member that the graph lists first. -/
theorem mem_cycles_iff (hg : g.IsClosed) {cycle : List CellId} :
    cycle ∈ g.cycles ↔
      ∃ start more, cycle = start :: more ∧ (start :: more).Nodup ∧
        (∀ v ∈ more, g.IsLater v start) ∧ List.IsChain g.Feeds (start :: (more ++ [start])) := by
  rw [mem_cycles_iff_mem_foundCycles hg, mem_foundCycles_iff hg]

theorem nodup_cyclesAlong {start current : CellId} {room : Nat} {path : List CellId}
    (hstart : start ∈ path) : (g.cyclesAlong start room path current).Nodup := by
  induction room generalizing path current with
  | zero => exact List.nodup_nil
  | succ room ih =>
    rw [cyclesAlong, List.nodup_flatMap]
    refine ⟨fun next _ => ?_, (nodup_eraseDups _).imp fun {u v} hne cycle hu hv => ?_⟩
    · split
      · exact List.nodup_singleton path
      · split
        · exact ih (List.mem_append_left _ hstart)
        · exact List.nodup_nil
    -- the branches differ in the cell after the path; where the path closes there is none
    · have hbranch : ∀ next, (cycle ∈ if next = start then [path]
          else if g.IsLater next start ∧ next ∉ path then
            g.cyclesAlong start room (path ++ [next]) next else []) →
          next = start ∧ cycle = path ∨ ∃ more, cycle = path ++ next :: more := by
        intro next hcycle
        split at hcycle
        · next heq => exact Or.inl ⟨heq, List.mem_singleton.mp hcycle⟩
        · split at hcycle
          · obtain ⟨more, rfl, _⟩ := (mem_cyclesAlong_iff (List.mem_append_left _ hstart)).mp hcycle
            exact Or.inr ⟨more, by simp⟩
          · cases hcycle
      rcases hbranch u hu with ⟨rfl, rfl⟩ | ⟨more, rfl⟩ <;>
        rcases hbranch v hv with ⟨rfl, heq⟩ | ⟨more', heq⟩
      · exact hne rfl
      · simp at heq
      · simp at heq
      · exact hne (List.cons.inj (List.append_cancel_left heq)).1

theorem nodup_foundCycles (hg : g.IsClosed) (hn : g.ids.Nodup) : g.foundCycles.Nodup := by
  rw [foundCycles, List.nodup_flatMap]
  refine ⟨fun start _ => nodup_cyclesAlong (List.mem_singleton_self start),
    hn.imp fun {u v} hne cycle hu hv => ?_⟩
  obtain ⟨more, rfl, _⟩ := (mem_cyclesFrom_iff hg).mp hu
  obtain ⟨more', heq, _⟩ := (mem_cyclesFrom_iff hg).mp hv
  exact hne (List.cons.inj heq).1

/-- No canonical form comes twice, so nothing that the search meets is passed over. -/
theorem nodup_map_canonical (hg : g.IsClosed) (hn : g.ids.Nodup) :
    (g.foundCycles.map canonical).Nodup :=
  (List.nodup_map_iff_inj_on (nodup_foundCycles hg hn)).mpr
    fun _ hc _ hd heq => eq_of_canonical_eq hg hc hd heq

theorem cycles_eq_foundCycles (hg : g.IsClosed) (hn : g.ids.Nodup) :
    g.cycles = g.foundCycles :=
  keepFirst_eq_self (nodup_map_canonical hg hn) fun _ _ => List.not_mem_nil

/-! ## Cycles and groups -/

/-- Two cells feed each other, directly or through others, or are the same. -/
def Joined (g : Graph) (u v : CellId) : Prop :=
  ReflTransGen g.Feeds u v ∧ ReflTransGen g.Feeds v u

theorem Joined.symm {u v : CellId} (h : g.Joined u v) : g.Joined v u := ⟨h.2, h.1⟩

theorem Joined.trans {u v w : CellId} (h : g.Joined u v) (h' : g.Joined v w) : g.Joined u w :=
  ⟨h.1.trans h'.1, h'.2.trans h.2⟩

theorem Joined.transGen {u v z : CellId} (h : g.Joined u v) (hne : u ≠ v)
    (hz : g.Joined u z) : TransGen g.Feeds z z := by
  have hstep : TransGen g.Feeds u u := by
    cases reflTransGen_iff_eq_or_transGen.mp h.1 with
    | inl heq => exact absurd heq.symm hne
    | inr htrans => exact htrans.trans_left h.2
  exact (TransGen.trans_right hz.2 hstep).trans_left hz.1

theorem joined_of_isChain {start v : CellId} {more : List CellId}
    (h : List.IsChain g.Feeds (start :: (more ++ [start]))) (hv : v ∈ start :: more) :
    g.Joined start v ∧ TransGen g.Feeds v v := by
  rcases List.mem_cons.mp hv with rfl | hv
  · exact ⟨⟨.refl, .refl⟩, transGen_of_isChain h⟩
  · obtain ⟨before, after, rfl⟩ := List.append_of_mem hv
    rw [List.append_assoc, List.cons_append, List.isChain_cons_split] at h
    have hto := transGen_of_isChain h.1
    have hback := transGen_of_isChain h.2
    exact ⟨⟨hto.to_reflTransGen, hback.to_reflTransGen⟩, hback.trans hto⟩

theorem joined_of_mem_cycles (hg : g.IsClosed) {cycle : List CellId} (hc : cycle ∈ g.cycles)
    {u v : CellId} (hu : u ∈ cycle) (hv : v ∈ cycle) : g.Joined u v := by
  obtain ⟨start, more, rfl, _, _, hchain⟩ := (mem_cycles_iff hg).mp hc
  exact (joined_of_isChain hchain hu).1.symm.trans (joined_of_isChain hchain hv).1

/-- A cycle can be turned so that it starts at the member listed first, and so is among those
reported. -/
theorem exists_isRotated_mem_cycles (hg : g.IsClosed) {first : CellId} {rest : List CellId}
    (hnodup : (first :: rest).Nodup)
    (hchain : List.IsChain g.Feeds (first :: (rest ++ [first]))) :
    ∃ cycle ∈ g.cycles, cycle.IsRotated (first :: rest) := by
  obtain ⟨start, hstart, hmin⟩ := (first :: rest).toFinset.exists_min_image g.ids.idxOf
    ⟨first, by simp⟩
  obtain ⟨before, after, heq⟩ := List.append_of_mem (List.mem_toFinset.mp hstart)
  have hrot : (start :: (after ++ before)).IsRotated (first :: rest) := by
    rw [heq]
    exact List.isRotated_append (l := start :: after)
  have hturned : List.IsChain g.Feeds (start :: ((after ++ before) ++ [start])) := by
    rw [← Cycle.chain_coe_cons] at hchain ⊢
    rwa [Cycle.coe_eq_coe.mpr hrot]
  have hnodup' : (start :: (after ++ before)).Nodup := hrot.perm.nodup_iff.mpr hnodup
  refine ⟨start :: (after ++ before), (mem_cycles_iff hg).mpr
    ⟨start, after ++ before, rfl, hnodup', fun u hu => ?_, hturned⟩, hrot⟩
  have hne : u ≠ start := fun he => (List.nodup_cons.mp hnodup').1 (he ▸ hu)
  have hle := hmin u (List.mem_toFinset.mpr (hrot.perm.mem_iff.mp (List.mem_cons_of_mem _ hu)))
  refine lt_of_le_of_ne hle fun he => hne ?_
  exact ((List.idxOf_inj (mem_ids_of_isChain hg hturned List.mem_cons_self)).mp he).symm

/-- A closed walk through a cell can be shortened to a cycle through the cell. -/
theorem exists_mem_cycles_iff (hg : g.IsClosed) {v : CellId} :
    (∃ cycle ∈ g.cycles, v ∈ cycle) ↔ TransGen g.Feeds v v := by
  constructor
  · rintro ⟨cycle, hc, hv⟩
    obtain ⟨start, more, rfl, _, _, hchain⟩ := (mem_cycles_iff hg).mp hc
    exact (joined_of_isChain hchain hv).2
  · intro h
    obtain ⟨next, hnext, hback⟩ := TransGen.head'_iff.mp h
    obtain ⟨l, hnodup, hchain, hlast⟩ := exists_nodup_isChain hback
    have hclosed : List.IsChain g.Feeds (next :: (l ++ [next])) := by
      rw [← List.cons_append, List.isChain_append]
      exact ⟨hchain, by simp, by simp [hlast, hnext]⟩
    obtain ⟨cycle, hc, hrot⟩ := exists_isRotated_mem_cycles hg hnodup hclosed
    exact ⟨cycle, hc, hrot.perm.mem_iff.mpr (List.mem_of_getLast? hlast)⟩

theorem isLater_restrict_iff {keep : CellId → Bool} {u v : CellId} (hu : keep u = true)
    (hv : keep v = true) : (g.restrict keep).IsLater u v ↔ g.IsLater u v :=
  idxOf_filter_lt_iff hv hu g.ids

/-- A search that starts within a group meets cells of the group only on the paths that close. Both
bounds have to leave room for the members that the path does not hold. -/
theorem cyclesAlong_restrict (hg : g.IsClosed) {keep : CellId → Bool} {start current : CellId}
    (hgroup : ∀ u, g.Joined start u → keep u = true) {room room' : Nat} {path : List CellId}
    (hstart : start ∈ path) (hwalk : ReflTransGen g.Feeds start current)
    (hcurrent : keep current = true)
    (hroom : ((g.ids.filter keep).filter fun v => decide (v ∉ path)).length < room)
    (hroom' : ((g.ids.filter keep).filter fun v => decide (v ∉ path)).length < room') :
    (g.restrict keep).cyclesAlong start room' path current =
      g.cyclesAlong start room path current := by
  induction room generalizing room' path current with
  | zero => exact absurd hroom (Nat.not_lt_zero _)
  | succ room ih =>
    obtain ⟨room', rfl⟩ := Nat.exists_eq_succ_of_ne_zero (Nat.ne_zero_of_lt hroom')
    have hkeep : keep start = true := hgroup start ⟨.refl, .refl⟩
    rw [cyclesAlong, cyclesAlong, targets_restrict hcurrent, ← flatMap_ite]
    apply List.flatMap_congr
    intro next hnext
    have hfeeds : g.Feeds current next := mem_targets_iff.mp hnext
    have hwalk' : ReflTransGen g.Feeds start next := hwalk.tail hfeeds
    by_cases hs : next = start
    · rw [if_pos (hs ▸ hkeep), if_pos hs, if_pos hs]
    rw [if_neg hs, if_neg hs]
    by_cases hk : keep next = true
    · rw [if_pos hk]
      simp only [isLater_restrict_iff hk hkeep]
      split
      · next hlater =>
        have hless := length_filter_append_lt
          (List.mem_filter.mpr ⟨(hg current next hfeeds).2, hk⟩) hlater.2
          (List.mem_singleton_self next)
        exact ih (List.mem_append_left _ hstart) hwalk' hk (by omega) (by omega)
      · rfl
    · rw [if_neg hk]
      split
      · refine (List.eq_nil_iff_forall_not_mem.mpr fun cycle hc => hk (hgroup next ?_)).symm
        obtain ⟨more, _, _, _, _, hchain⟩ :=
          (mem_cyclesAlong_iff (List.mem_append_left _ hstart)).mp hc
        exact ⟨hwalk', (transGen_of_isChain hchain).to_reflTransGen⟩
      · rfl

theorem cyclesFrom_restrict (hg : g.IsClosed) {keep : CellId → Bool} {start : CellId}
    (hstart : start ∈ g.ids) (hgroup : ∀ u, g.Joined start u → keep u = true) :
    (g.restrict keep).cyclesFrom start = g.cyclesFrom start := by
  have hkeep : keep start = true := hgroup start ⟨.refl, .refl⟩
  have hroom : ((g.ids.filter keep).filter fun v => decide (v ∉ [start])).length <
      (g.ids.filter keep).length :=
    List.length_filter_lt_length_iff_exists.mpr
      ⟨start, List.mem_filter.mpr ⟨hstart, hkeep⟩, by simp⟩
  exact cyclesAlong_restrict hg hgroup (List.mem_singleton_self start) .refl hkeep
    (Nat.lt_of_lt_of_le hroom (List.length_filter_le keep g.ids)) hroom

/-- The cycles through a cell, in their order, can be read off any part of the graph that holds the
cells joined to it. -/
theorem filter_cycles_restrict (hg : g.IsClosed) (hn : g.ids.Nodup) {keep : CellId → Bool}
    {v : CellId} (hgroup : ∀ u, g.Joined v u → keep u = true) :
    ((g.restrict keep).cycles.filter fun cycle => cycle.contains v) =
      g.cycles.filter fun cycle => cycle.contains v := by
  have hnil : ∀ {h : Graph} (hh : h.IsClosed) {start : CellId}, ¬ h.Joined v start →
      ((h.cyclesFrom start).filter fun cycle => cycle.contains v) = [] := by
    intro h hh start hjoined
    refine List.filter_eq_nil_iff.mpr fun cycle hc hv => hjoined ?_
    obtain ⟨more, rfl, _, _, hchain⟩ := (mem_cyclesFrom_iff hh).mp hc
    exact (joined_of_isChain hchain (by simpa using hv)).1.symm
  rw [cycles_eq_foundCycles hg hn, cycles_eq_foundCycles hg.restrict (hn.filter keep), foundCycles,
    foundCycles, restrict, List.filter_flatMap, List.filter_flatMap, ← flatMap_ite]
  apply List.flatMap_congr
  intro start hstart
  by_cases hjoined : g.Joined v start
  · rw [if_pos (hgroup start hjoined)]
    exact congrArg _ (cyclesFrom_restrict hg hstart fun u hu => hgroup u (hjoined.trans hu))
  · rw [hnil hg hjoined]
    split
    · have hfeeds : ∀ a b, (g.restrict keep).Feeds a b → g.Feeds a b :=
        fun _ _ h => (feeds_restrict_iff.mp h).1
      exact hnil hg.restrict fun hr =>
        hjoined ⟨ReflTransGen.mono hfeeds _ _ hr.1, ReflTransGen.mono hfeeds _ _ hr.2⟩
    · rfl

theorem arcName?_restrict {keep : CellId → Bool} {u v : CellId} (hu : keep u = true)
    (hv : keep v = true) : (g.restrict keep).arcName? u v = g.arcName? u v := by
  rw [arcName?, arcName?, outputs_restrict hu, List.find?_filter]
  congr 2
  funext p
  by_cases hp : p.1 = v
  · simp [hp, hv]
  · simp [hp]

theorem mem_of_mem_hops {cycle : List CellId} {hop : CellId × CellId} (h : hop ∈ hops cycle) :
    hop.1 ∈ cycle ∧ hop.2 ∈ cycle := by
  obtain ⟨u, v⟩ := hop
  obtain ⟨hfst, hsnd⟩ := List.of_mem_zip h
  refine ⟨hfst, ?_⟩
  cases List.mem_append.mp hsnd with
  | inl h => exact List.mem_of_mem_drop h
  | inr h => exact List.mem_of_mem_take h

theorem cycleNames_restrict {keep : CellId → Bool} {start : CellId} {cycle : List CellId}
    (h : ∀ v ∈ cycle, keep v = true) :
    (g.restrict keep).cycleNames start cycle = g.cycleNames start cycle := by
  have hnames : (hops (rotateTo start cycle)).filterMap
      (fun hop => (g.restrict keep).arcName? hop.1 hop.2) =
      (hops (rotateTo start cycle)).filterMap fun hop => g.arcName? hop.1 hop.2 := by
    apply List.filterMap_congr
    intro hop hhop
    obtain ⟨hfst, hsnd⟩ := mem_of_mem_hops hhop
    exact arcName?_restrict (h _ (mem_rotateTo_iff.mp hfst)) (h _ (mem_rotateTo_iff.mp hsnd))
  simp only [cycleNames, hnames]

end Graph

end Recalc
