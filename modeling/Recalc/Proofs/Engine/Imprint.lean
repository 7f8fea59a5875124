import Mathlib.Data.List.Basic
import Recalc.Engine.Tick

/-!
# What the parts of a tick leave behind

The imprint of a cell is its record without the traces of a run in progress: whether it runs, whether
it waits, and under which token. A cell without a record has the imprint of a cell that has never
run. Only `complete` and `discharge` change imprints, and only that of the cell they are about.

The survey of a tick and the values that a run reads depend on imprints alone, apart from the question
which cells have a record.
-/

namespace Recalc

variable {κ ν : Type}

namespace Record

/-- A record without the traces of a run in progress. -/
def imprint (r : Record ν) : Record ν := { r with running := false, waiting := false, token := ⟨0⟩ }

def blank : Record ν := fresh ⟨0⟩

def completed (answered computed : Time) (consulted : List CellId) (result : Result ν) : Record ν :=
  blank.complete answered computed consulted result

end Record

theorem foldl_invariant_of_mem {α β γ : Type} (view : α → γ) {op : α → β → α} {l : List β}
    (h : ∀ b ∈ l, ∀ a, view (op a b) = view a) (a : α) : view (l.foldl op a) = view a := by
  induction l generalizing a with
  | nil => rfl
  | cons b rest ih =>
    rw [List.foldl_cons, ih fun c hc => h c (List.mem_cons_of_mem b hc), h b List.mem_cons_self]

theorem foldl_invariant {α β γ : Type} (view : α → γ) {op : α → β → α}
    (h : ∀ a b, view (op a b) = view a) (a : α) (l : List β) : view (l.foldl op a) = view a :=
  foldl_invariant_of_mem view (fun b _ a => h a b) a

namespace Engine

def imprint (e : Engine κ ν) (id : CellId) : Record ν := (Survey.recordOf e.records id).imprint

/-- What a change of records leaves alone. -/
structure Surroundings (κ ν : Type) where
  settings : Settings
  clock : Clock
  requests : List (Request κ ν)

def surroundings (e : Engine κ ν) : Surroundings κ ν := ⟨e.settings, e.clock, e.requests⟩

variable {e : Engine κ ν} {id j : CellId} {r : Record ν}

theorem imprint_of_get? (h : e.records.get? id = some r) : e.imprint id = r.imprint := by
  rw [imprint, Survey.recordOf, h]
  rfl

theorem imprint_of_not_contains (h : e.records.contains id = false) : e.imprint id = .blank := by
  rw [Table.contains, Option.isSome_eq_false_iff, Option.isNone_iff_eq_none] at h
  rw [imprint, Survey.recordOf, h]
  rfl

theorem imprint_congr {e' : Engine κ ν} (h : e.records.get? id = e'.records.get? id) :
    e.imprint id = e'.imprint id := by
  rw [imprint, imprint, Survey.recordOf, Survey.recordOf, h]

theorem contains_congr {e' : Engine κ ν} (h : e.records.get? id = e'.records.get? id) :
    e.records.contains id = e'.records.contains id := by
  rw [Table.contains, Table.contains, h]

theorem contains_of_get? (h : e.records.get? id = some r) : e.records.contains id = true := by
  rw [Table.contains, h]
  rfl

/-! ## Storing a record -/

theorem get?_store_self : (e.store id r).records.get? id = some r := Table.get?_insert_self _ _ _

theorem get?_store_of_ne (h : j ≠ id) : (e.store id r).records.get? j = e.records.get? j :=
  Table.get?_insert_of_ne _ h _

theorem surroundings_store : (e.store id r).surroundings = e.surroundings := rfl

theorem contains_store (h : e.records.contains id = true) :
    (e.store id r).records.contains j = e.records.contains j := by
  by_cases hj : j = id
  · subst hj
    rw [h, contains_of_get? get?_store_self]
  · exact contains_congr (get?_store_of_ne hj)

/-! ## Opening and dropping records -/

theorem surroundings_enroll (e : Engine κ ν) (id : CellId) :
    (e.enroll id).surroundings = e.surroundings := by
  rw [enroll]
  split <;> rfl

theorem get?_enroll_of_ne (h : j ≠ id) : (e.enroll id).records.get? j = e.records.get? j := by
  rw [enroll]
  split
  · rfl
  · exact Table.get?_insert_of_ne _ h _

theorem imprint_enroll (e : Engine κ ν) (id : CellId) : (e.enroll id).imprint = e.imprint := by
  funext j
  by_cases hj : j = id
  · subst hj
    rw [enroll]
    split
    · rfl
    · next hnew =>
      have hblank : e.imprint j = .blank := imprint_of_not_contains (by simpa using hnew)
      rw [hblank]
      exact imprint_of_get? (r := .fresh e.tokens.fresh) (Table.get?_insert_self _ _ _)
  · exact imprint_congr (get?_enroll_of_ne hj)

theorem contains_enroll_iff :
    (e.enroll id).records.contains j = true ↔ e.records.contains j = true ∨ j = id := by
  by_cases hj : j = id
  · subst hj
    simp only [or_true, iff_true]
    rw [enroll]
    split
    · next h => exact h
    · exact contains_of_get? (Table.get?_insert_self _ _ _)
  · rw [contains_congr (get?_enroll_of_ne hj)]
    simp [hj]

theorem surroundings_enrollAll (e : Engine κ ν) (nb : Notebook κ) :
    (e.enrollAll nb).surroundings = e.surroundings :=
  foldl_invariant surroundings surroundings_enroll e nb.codeIds

theorem imprint_enrollAll (e : Engine κ ν) (nb : Notebook κ) :
    (e.enrollAll nb).imprint = e.imprint :=
  foldl_invariant imprint imprint_enroll e nb.codeIds

theorem contains_enrollAll_iff {nb : Notebook κ} :
    (e.enrollAll nb).records.contains id = true ↔
      e.records.contains id = true ∨ id ∈ nb.codeIds := by
  rw [enrollAll]
  generalize nb.codeIds = ids
  induction ids generalizing e with
  | nil => simp
  | cons j rest ih => rw [List.foldl_cons, ih, contains_enroll_iff, List.mem_cons, or_assoc]

theorem surroundings_discharge (e : Engine κ ν) (id : CellId) :
    (e.discharge id).surroundings = e.surroundings := by
  rw [discharge]
  split <;> rfl

theorem get?_discharge_of_ne (h : j ≠ id) : (e.discharge id).records.get? j = e.records.get? j := by
  rw [discharge]
  split
  · rfl
  · exact Table.get?_erase_of_ne _ h

theorem get?_discharge_self (e : Engine κ ν) (id : CellId) :
    (e.discharge id).records.get? id = none := by
  rw [discharge]
  split
  · next h => exact h
  · exact Table.get?_erase_self _ _

theorem get?_foldl_discharge (e : Engine κ ν) (ids : List CellId) :
    (ids.foldl discharge e).records.get? id = if id ∈ ids then none else e.records.get? id := by
  induction ids generalizing e with
  | nil => rfl
  | cons j rest ih =>
    rw [List.foldl_cons, ih]
    by_cases hj : id = j
    · subst hj
      simp [get?_discharge_self]
    · simp [hj, get?_discharge_of_ne hj]

/-! ## Marks -/

theorem surroundings_setWaiting (e : Engine κ ν) (id : CellId) (waiting : Bool) :
    (e.setWaiting id waiting).surroundings = e.surroundings := by
  rw [setWaiting]
  split
  · rfl
  · split
    · rfl
    · exact surroundings_store

theorem imprint_setWaiting (e : Engine κ ν) (id : CellId) (waiting : Bool) :
    (e.setWaiting id waiting).imprint = e.imprint := by
  rw [setWaiting]
  split
  · rfl
  · next r hr =>
    split
    · rfl
    · funext j
      by_cases hj : j = id
      · subst hj
        rw [imprint_of_get? hr, imprint_of_get? get?_store_self]
        rfl
      · exact imprint_congr (get?_store_of_ne hj)

theorem contains_setWaiting (e : Engine κ ν) (id : CellId) (waiting : Bool) :
    (e.setWaiting id waiting).records.contains = e.records.contains := by
  rw [setWaiting]
  split
  · rfl
  · next r hr =>
    split
    · rfl
    · exact funext fun j => contains_store (contains_of_get? hr)

theorem surroundings_markWaiting (e : Engine κ ν) (plan : Plan κ) (survey : Survey)
    (choice : Choice κ) : (e.markWaiting plan survey choice).surroundings = e.surroundings :=
  foldl_invariant surroundings (fun e id => surroundings_setWaiting e id _) e plan.order

theorem imprint_markWaiting (e : Engine κ ν) (plan : Plan κ) (survey : Survey)
    (choice : Choice κ) : (e.markWaiting plan survey choice).imprint = e.imprint :=
  foldl_invariant imprint (fun e id => imprint_setWaiting e id _) e plan.order

theorem contains_markWaiting (e : Engine κ ν) (plan : Plan κ) (survey : Survey)
    (choice : Choice κ) :
    (e.markWaiting plan survey choice).records.contains = e.records.contains :=
  foldl_invariant (fun e : Engine κ ν => e.records.contains)
    (fun e id => contains_setWaiting e id _) e plan.order

/-! ## Completing runs -/

variable {answered : Time} {consulted : List CellId} {result : Result ν}

theorem surroundings_complete :
    (e.complete id answered consulted result).surroundings = e.surroundings := by
  rw [complete]
  split <;> rfl

theorem complete_of_get? (h : e.records.get? id = some r) :
    e.complete id answered consulted result =
      e.store id (r.complete answered e.now consulted result) := by
  rw [complete, h]

theorem imprint_complete_self (h : e.records.contains id = true) :
    (e.complete id answered consulted result).imprint id =
      .completed answered e.now consulted result := by
  obtain ⟨r, hr⟩ := Option.isSome_iff_exists.mp h
  rw [complete_of_get? hr]
  exact imprint_of_get? get?_store_self

theorem imprint_complete_of_ne (h : j ≠ id) :
    (e.complete id answered consulted result).imprint j = e.imprint j := by
  rw [complete]
  split
  · rfl
  · exact imprint_congr (get?_store_of_ne h)

theorem contains_complete :
    (e.complete id answered consulted result).records.contains = e.records.contains := by
  rw [complete]
  split
  · rfl
  · next r hr => exact funext fun j => contains_store (contains_of_get? hr)

theorem surroundings_fire (e : Engine κ ν) (f : Faulty) :
    (e.fire f).surroundings = e.surroundings := surroundings_complete

theorem contains_fire (e : Engine κ ν) (f : Faulty) :
    (e.fire f).records.contains = e.records.contains := contains_complete

theorem now_fire (e : Engine κ ν) (f : Faulty) : (e.fire f).now = e.now :=
  congrArg Clock.now (congrArg Surroundings.clock (surroundings_fire e f))

theorem surroundings_foldl_fire (e : Engine κ ν) (fs : List Faulty) :
    (fs.foldl fire e).surroundings = e.surroundings :=
  foldl_invariant surroundings surroundings_fire e fs

theorem contains_foldl_fire (e : Engine κ ν) (fs : List Faulty) :
    (fs.foldl fire e).records.contains = e.records.contains :=
  foldl_invariant (fun e : Engine κ ν => e.records.contains) contains_fire e fs

theorem imprint_foldl_fire_of_ne {fs : List Faulty} (h : ∀ f ∈ fs, f.node.id ≠ id) :
    (fs.foldl fire e).imprint id = e.imprint id :=
  foldl_invariant_of_mem (fun e => e.imprint id)
    (fun f hf _ => imprint_complete_of_ne (h f hf).symm) e

theorem imprint_foldl_fire {fs : List Faulty} (hnodup : (fs.map fun f => f.node.id).Nodup)
    {f : Faulty} (hf : f ∈ fs) (h : e.records.contains f.node.id = true) :
    (fs.foldl fire e).imprint f.node.id =
      .completed f.requested e.now (e.consulted f.node) (.threw f.fault) := by
  induction fs generalizing e with
  | nil => cases hf
  | cons g rest ih =>
    obtain ⟨hg, hrest⟩ := List.nodup_cons.mp hnodup
    rw [List.foldl_cons]
    rcases List.mem_cons.mp hf with rfl | hf
    · rw [imprint_foldl_fire_of_ne fun x hx heq => hg (List.mem_map.mpr ⟨x, hx, heq⟩)]
      exact imprint_complete_self h
    · rw [ih hrest hf (by rwa [contains_fire]), now_fire, Engine.consulted, Engine.consulted,
        contains_fire]

/-- The request for a run of a cell in place of the run of its record, which is cancelled. -/
def requestInPlaceOf (e : Engine κ ν) (record : Record ν) (r : Runnable κ) : Request κ ν :=
  { e with tokens := e.tokens.cancel record.token }.requestFor r

/-- The engine that has made the request and not yet changed the record. -/
def requesting (e : Engine κ ν) (record : Record ν) (r : Runnable κ) : Engine κ ν :=
  { e with
    tokens := (e.tokens.cancel record.token).issue
    requests := e.requestInPlaceOf record r :: e.requests }

theorem launch_of_get? (runner : Runner κ ν) {r : Runnable κ} {record : Record ν}
    (h : e.records.get? r.node.id = some record) :
    e.launch runner r =
      ((e.requesting record r).store r.node.id
        (record.start (e.requestInPlaceOf record r).token)).store r.node.id
          ((record.start (e.requestInPlaceOf record r).token).complete r.requested e.now
            (e.consulted r.node) (resultOf (runner (e.requestInPlaceOf record r)))) := by
  rw [launch, h]
  exact complete_of_get? get?_store_self

/-- The run of a cell leaves the answer of the runner, and the values that the runner was given. -/
theorem launch_spec (runner : Runner κ ν) {r : Runnable κ}
    (h : e.records.contains r.node.id = true) :
    ∃ request : Request κ ν, request.cell = r.node.id ∧ request.code = r.code ∧
      request.inputs = e.inputsOf r.node ∧
      (e.launch runner r).surroundings = ⟨e.settings, e.clock, request :: e.requests⟩ ∧
      (e.launch runner r).imprint r.node.id =
        .completed r.requested e.now (e.consulted r.node) (resultOf (runner request)) ∧
      (∀ j, j ≠ r.node.id → (e.launch runner r).imprint j = e.imprint j) ∧
      (e.launch runner r).records.contains = e.records.contains := by
  obtain ⟨record, hr⟩ := Option.isSome_iff_exists.mp h
  rw [launch_of_get? runner hr]
  refine ⟨e.requestInPlaceOf record r, rfl, rfl, rfl, rfl, ?_, fun j hj => ?_, funext fun j => ?_⟩
  · exact imprint_of_get? get?_store_self
  · exact imprint_congr ((get?_store_of_ne hj).trans (get?_store_of_ne hj))
  · rw [contains_store (contains_of_get? get?_store_self)]
    exact contains_store (e := e.requesting record r) h

/-! ## What depends on imprints -/

theorem valueOf?_eq (e : Engine κ ν) (source : CellId) (name : Name) :
    e.valueOf? source name = (e.imprint source).exported.get? name := by
  rw [valueOf?, imprint, Survey.recordOf]
  cases e.records.get? source <;> rfl

theorem inputsOf_eq_of_inputs {node node' : Node} (h : node.inputs = node'.inputs) :
    e.inputsOf node = e.inputsOf node' := by
  rw [inputsOf, inputsOf, h]

theorem inputsOf_congr {e' : Engine κ ν} {node : Node}
    (h : ∀ u ∈ node.inputIds, (e.imprint u).exported = (e'.imprint u).exported) :
    e.inputsOf node = e'.inputsOf node := by
  rw [inputsOf, inputsOf]
  refine List.foldl_ext _ _ _ fun inputs p hp => ?_
  have hid : p.1 ∈ node.inputIds := by simpa [Node.inputIds] using ⟨p.2, hp⟩
  rw [valueOf?_eq, valueOf?_eq, h p.1 hid]

end Engine

end Recalc
