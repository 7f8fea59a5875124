import Mathlib.Data.List.Forall2
import Mathlib.Data.List.TakeWhile
import Recalc.Proofs.Graph.Enumeration
import Recalc.Proofs.Plan.Classification

/-!
# The paths of a cyclic dependency

The fault of a cell on a cycle names the cycles through it. Written from the cell on, they are the
elementary cycles that start there, each once (`mem_cyclesThrough_iff`), and each path takes, from
member to member, the name of the first arc there is (`spells_cycleNames`). No name is left out, as
consecutive members of a cycle are joined by an arc however the cycle is turned.
-/

namespace Recalc

namespace Graph

variable {g : Graph} {v : CellId} {cycle : List CellId}

/-! ## Cycles from a member on -/

theorem IsCycle.of_isRotated {turned : List CellId} (h : g.IsCycle cycle)
    (hrot : turned.IsRotated cycle) : g.IsCycle turned := by
  cases cycle with
  | nil => exact absurd rfl h.ne_nil
  | cons first rest =>
    cases turned with
    | nil => exact absurd (List.isRotated_nil_iff'.mp hrot).symm (List.cons_ne_nil _ _)
    | cons start more =>
      obtain ⟨hnodup, hchain⟩ := isCycle_cons_iff.mp h
      rw [← Cycle.chain_coe_cons] at hchain
      refine isCycle_cons_iff.mpr ⟨hrot.perm.nodup_iff.mpr hnodup, ?_⟩
      rwa [← Cycle.chain_coe_cons, Cycle.coe_eq_coe.mpr hrot]

theorem head?_rotateTo (hv : v ∈ cycle) : (rotateTo v cycle).head? = some v := by
  have hne : cycle.dropWhile (· ≠ v) ≠ [] := by
    rw [ne_eq, List.dropWhile_eq_nil_iff]
    exact fun h => absurd (h v hv) (by simp)
  have hhead := List.head_dropWhile_not (· ≠ v) hne
  rw [rotateTo, List.head?_append, List.head?_eq_some_head hne, Option.some_or]
  exact congrArg some (by simpa using hhead)

/-- The cycles through a cell in the order in which they are reported, each from the cell on. -/
def cyclesThrough (g : Graph) (v : CellId) : List (List CellId) :=
  (g.cycles.filter fun cycle => cycle.contains v).map (rotateTo v)

theorem forall₂_isRotated_cyclesThrough (g : Graph) (v : CellId) :
    List.Forall₂ List.IsRotated (g.cyclesThrough v)
      (g.cycles.filter fun cycle => cycle.contains v) := by
  rw [cyclesThrough, List.forall₂_map_left_iff, List.forall₂_same]
  exact fun cycle _ => isRotated_rotateTo v cycle

/-- The cycles through a cell are the elementary cycles that start at the cell. -/
theorem mem_cyclesThrough_iff (hg : g.IsClosed) :
    cycle ∈ g.cyclesThrough v ↔ g.IsCycle cycle ∧ cycle.head? = some v := by
  simp only [cyclesThrough, List.mem_map, List.mem_filter, List.contains_iff_mem]
  constructor
  · rintro ⟨found, ⟨hfound, hv⟩, rfl⟩
    exact ⟨(isCycle_of_mem_cycles hg hfound).1.of_isRotated (isRotated_rotateTo v found),
      head?_rotateTo hv⟩
  · rintro ⟨hcycle, hhead⟩
    obtain ⟨rest, rfl⟩ := List.head?_eq_some_iff.mp hhead
    obtain ⟨hnodup, hchain⟩ := isCycle_cons_iff.mp hcycle
    obtain ⟨found, hfound, hrot⟩ := exists_isRotated_mem_cycles hg hnodup hchain
    have hv : v ∈ found := hrot.perm.mem_iff.mpr List.mem_cons_self
    refine ⟨found, ⟨hfound, hv⟩, ?_⟩
    obtain ⟨more, hmore⟩ := List.head?_eq_some_iff.mp (head?_rotateTo hv)
    -- two turns of one cycle that start at the same member are equal
    have hturn : (v :: rest).IsRotated (v :: more) :=
      hmore ▸ hrot.symm.trans (isRotated_rotateTo v found).symm
    rw [hmore, eq_of_isRotated_cons hnodup hturn]

theorem nodup_cyclesThrough (hg : g.IsClosed) (hn : g.ids.Nodup) (v : CellId) :
    (g.cyclesThrough v).Nodup := by
  refine (List.nodup_map_iff_inj_on ((nodup_cycles hg hn).filter _)).mpr fun c hc d hd heq => ?_
  have hrot : c.IsRotated d :=
    (isRotated_rotateTo v c).symm.trans (heq ▸ isRotated_rotateTo v d)
  exact eq_of_isRotated hg ((mem_cycles_iff_mem_foundCycles hg).mp (List.mem_of_mem_filter hc))
    ((mem_cycles_iff_mem_foundCycles hg).mp (List.mem_of_mem_filter hd)) hrot

/-! ## The names along a cycle -/

/-- Of the arcs from `u` to `v`, the one that was created first. -/
def firstArc? (g : Graph) (u v : CellId) : Option Arc :=
  g.arcs.find? fun a => a.source == u && a.target == v

/-- A path spells a cycle: it names the first arc from each member to the next and from the last
to the first, and ends with the name it begins with. -/
structure Spells (g : Graph) (cycle : List CellId) (path : List Name) : Prop where
  length : path.length = cycle.length + 1
  name : ∀ i u v, cycle[i]? = some u → cycle[(i + 1) % cycle.length]? = some v →
    ∃ a, g.firstArc? u v = some a ∧ path[i]? = some a.link.output
  closes : path.getLast? = path.head?

theorem arcName?_eq_firstArc? (g : Graph) (u v : CellId) :
    g.arcName? u v = (g.firstArc? u v).map fun a => a.link.output := by
  rw [arcName?, outputs, List.find?_map, List.find?_filter, Option.map_map, firstArc?]
  simp only [Bool.decide_and, Bool.decide_eq_true]
  rfl

theorem getElem?_hops {i : Nat} {u v : CellId} (hu : cycle[i]? = some u)
    (hv : cycle[(i + 1) % cycle.length]? = some v) : (hops cycle)[i]? = some (u, v) := by
  have hi : i < cycle.length := (List.getElem?_eq_some_iff.mp hu).1
  have hone : 1 ≤ cycle.length := by omega
  rw [hops, ← List.rotate_eq_drop_append_take hone, List.getElem?_zip_eq_some,
    List.getElem?_rotate hi]
  exact ⟨hu, hv⟩

theorem length_hops (cycle : List CellId) : (hops cycle).length = cycle.length := by
  simp only [hops, List.length_zip, List.length_append, List.length_drop, List.length_take]
  omega

theorem map_some_filterMap {α β : Type} {f : α → Option β} {l : List α}
    (h : ∀ x ∈ l, (f x).isSome) : (l.filterMap f).map some = l.map f := by
  rw [List.map_filterMap_some_eq_filter_map_isSome, List.filter_eq_self]
  exact List.forall_mem_map.mpr h

theorem spells_cycleNames (hcycle : g.IsCycle (rotateTo v cycle)) :
    g.Spells (rotateTo v cycle) (g.cycleNames v cycle) := by
  rw [cycleNames]
  generalize rotateTo v cycle = turned at hcycle
  have hnames : ((hops turned).filterMap fun hop => g.arcName? hop.1 hop.2).map some =
      (hops turned).map fun hop => g.arcName? hop.1 hop.2 :=
    map_some_filterMap fun hop hhop => arcName?_isSome_iff.mpr (hcycle.feeds hop hhop)
  generalize (hops turned).filterMap (fun hop => g.arcName? hop.1 hop.2) = names at hnames
  have hlength : names.length = turned.length := by
    simpa only [List.length_map, length_hops] using congrArg List.length hnames
  have hpos : 0 < turned.length := List.length_pos_iff.mpr hcycle.ne_nil
  obtain ⟨first, rest, rfl⟩ : ∃ first rest, names = first :: rest :=
    List.exists_cons_of_length_pos (hlength ▸ hpos)
  refine ⟨by rw [List.length_append, hlength]; rfl, fun i u w hu hw => ?_, List.getLast?_concat⟩
  have hi : i < (first :: rest).length := hlength ▸ (List.getElem?_eq_some_iff.mp hu).1
  have hname := congrArg (fun l => l[i]?) hnames
  simp only [List.getElem?_map, getElem?_hops hu hw, Option.map_some, arcName?_eq_firstArc?,
    List.getElem?_eq_getElem hi, Option.some.injEq] at hname
  obtain ⟨a, ha, hlink⟩ := Option.map_eq_some_iff.mp hname.symm
  exact ⟨a, ha, by rw [List.getElem?_append_left hi, List.getElem?_eq_getElem hi, hlink]⟩

theorem exports_of_mem_arcs {cells : List Interface} {a : Arc} (h : a ∈ (ofInterfaces cells).arcs) :
    ∃ c ∈ cells, c.id = a.source ∧ c.Exports a.link.output := by
  obtain ⟨p, hp, e, he, c, _, ⟨_, _, _, rfl⟩ | ⟨_, _, rfl⟩⟩ := mem_arcs_ofInterfaces_iff.mp h <;>
    exact ⟨p, hp, rfl, e, he, rfl⟩

/-- Each name on a path is an export of the member that the path takes it from. -/
theorem Spells.exports {cells : List Interface} {path : List Name} {i : Nat} {u : CellId}
    (h : (ofInterfaces cells).Spells cycle path) (hu : cycle[i]? = some u) :
    ∃ c ∈ cells, c.id = u ∧ ∃ name, path[i]? = some name ∧ c.Exports name := by
  have hi : i < cycle.length := (List.getElem?_eq_some_iff.mp hu).1
  have hnext : (i + 1) % cycle.length < cycle.length := Nat.mod_lt _ (by omega)
  obtain ⟨a, ha, hname⟩ := h.name i u _ hu (List.getElem?_eq_getElem hnext)
  have hends := List.find?_some ha
  rw [Bool.and_eq_true, beq_iff_eq, beq_iff_eq] at hends
  obtain ⟨c, hc, hid, hexp⟩ := exports_of_mem_arcs (List.mem_of_find?_eq_some ha)
  exact ⟨c, hc, hid.trans hends.1, _, hname, hexp⟩

end Graph

namespace Plan

variable {κ : Type} {nb : Notebook κ}

theorem paths_of_mem_faults (hV : nb.Valid) {f : Faulty} (hf : f ∈ (draft nb).faults)
    {paths : List (List Name)} (hfault : f.fault = .cyclicDependency paths) :
    paths ≠ [] ∧ ((graphOf nb).cycles.filter fun cycle => cycle.contains f.node.id).map
      ((graphOf nb).cycleNames f.node.id) = paths := by
  obtain ⟨c, _, source, _, hat, hnode⟩ := (mem_faults_draft_iff hV).mp hf
  have hid : f.node.id = c.id := by
    rw [hnode]
    rfl
  rw [hid]
  cases source with
  | error message =>
    rw [hfault] at hat
    cases hat
  | ok p => exact (fault?_eq_cyclicDependency_iff.mp (hat.trans (congrArg some hfault))).2.2

/-- The paths of a faulty cell on a cycle stand for the elementary cycles through the cell, one for
each and in the order in which the graph reports them. Each spells its cycle from the cell on, so it
is one name longer than the cycle, and it begins with a name that the cell exports. -/
theorem cyclicDependency_names_cycles (calls : List (Call κ)) :
    let nb := (Notebook.empty : Notebook κ).replay calls
    let g := (draft nb).graph
    ∀ f ∈ (draft nb).faults, ∀ paths, f.fault = .cyclicDependency paths →
      ∃ turned : List (List CellId),
        turned.Nodup ∧
        (∀ cycle, cycle ∈ turned ↔ g.IsCycle cycle ∧ cycle.head? = some f.node.id) ∧
        List.Forall₂ List.IsRotated turned
          (g.cycles.filter fun cycle => cycle.contains f.node.id) ∧
        List.Forall₂ g.Spells turned paths ∧
        paths ≠ [] ∧
        ∀ path ∈ paths, ∃ c ∈ nb.codeCells, c.id = f.node.id ∧
          ∃ name, path.head? = some name ∧ c.Exports name := by
  intro nb g f hf paths hfault
  have hV : nb.Valid := Notebook.valid_empty.replay calls
  have hg : g.IsClosed := isClosed_graphOf nb
  have hn : g.ids.Nodup := Graph.nodup_ids_ofInterfaces _
  obtain ⟨hne, hpaths⟩ := paths_of_mem_faults hV hf hfault
  have hspells : ∀ cycle ∈ g.cycles.filter fun cycle => cycle.contains f.node.id,
      g.Spells (Graph.rotateTo f.node.id cycle) (g.cycleNames f.node.id cycle) :=
    fun cycle hcycle => Graph.spells_cycleNames <|
      (Graph.isCycle_of_mem_cycles hg (List.mem_of_mem_filter hcycle)).1.of_isRotated
        (Graph.isRotated_rotateTo f.node.id cycle)
  refine ⟨g.cyclesThrough f.node.id, Graph.nodup_cyclesThrough hg hn _,
    fun cycle => Graph.mem_cyclesThrough_iff hg, Graph.forall₂_isRotated_cyclesThrough g _, ?_,
    hne, fun path hpath => ?_⟩
  · exact hpaths ▸ List.forall₂_map_left_iff.mpr
      (List.forall₂_map_right_iff.mpr (List.forall₂_same.mpr hspells))
  · rw [← hpaths] at hpath
    obtain ⟨cycle, hcycle, rfl⟩ := List.mem_map.mp hpath
    have hv : f.node.id ∈ cycle := List.contains_iff_mem.mp (List.mem_filter.mp hcycle).2
    have hfirst := Graph.head?_rotateTo hv
    rw [List.head?_eq_getElem?] at hfirst
    obtain ⟨i, hi, hid, name, hname, hexp⟩ := (hspells cycle hcycle).exports hfirst
    obtain ⟨c, hc, rfl⟩ := List.mem_map.mp hi
    exact ⟨c, hc, c.interface_id.symm.trans hid, name, List.head?_eq_getElem?.trans hname,
      Cell.exports_interface_iff.mp hexp⟩

/-- A cell that reads from itself, from a cell to which two arcs lead, and from a cell that defines
what a third one defines too. -/
def tangled : List (Call Unit) :=
  let call (imports exports : List Name) : Call Unit :=
    .addCode (.ok ⟨imports.map Link.same, exports.map Link.same, (), none, false⟩)
  [call ["s", "b", "m"] ["s", "a", "d"], call ["d", "a"] ["b"], call ["d"] ["x"],
    call [] ["x", "m"]]

/-- Of two arcs the path takes the one created first, and one path passes from a definition to its
rival. -/
theorem cyclicDependency_names_cycles_tangled :
    let g := (draft ((Notebook.empty : Notebook Unit).replay tangled)).graph
    let paths := [["s", "s"], ["a", "b", "a"], ["d", "x", "m", "d"]]
    (draft ((Notebook.empty : Notebook Unit).replay tangled)).HasFault ⟨0⟩
        (.cyclicDependency paths) ∧
      ∃ turned : List (List CellId),
        (∀ cycle, cycle ∈ turned ↔ g.IsCycle cycle ∧ cycle.head? = some ⟨0⟩) ∧
          List.Forall₂ g.Spells turned paths := by
  intro g paths
  have hfault : (draft ((Notebook.empty : Notebook Unit).replay tangled)).HasFault ⟨0⟩
      (.cyclicDependency paths) := by
    rw [HasFault]
    decide +kernel
  obtain ⟨f, hf, hid, hpaths⟩ := hfault
  obtain ⟨turned, _, hmem, _, hspells, _⟩ :=
    cyclicDependency_names_cycles tangled f hf paths hpaths
  exact ⟨⟨f, hf, hid, hpaths⟩, turned, hid ▸ hmem, hspells⟩

end Plan

end Recalc
