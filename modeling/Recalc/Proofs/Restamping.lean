import Mathlib.Order.Monotone.Basic
import Recalc.Choice
import Recalc.Proofs.Notebook

/-!
# Requests under other ticks

A request is compared with the request that the last run of its cell answered, and with the requests
of other cells; nothing else is ever read off its time. If the ticks of all requests are renamed and
keep their order, the same cells are stale and the same choice is made: the plan, the survey and the
choice commute with `restamp`.

A restamped notebook is without its clock, and its text is without requests, since no plan shows
either. Two notebooks that agree when restamped take the same calls, and agree after them
(`Notebook.restamp_apply_congr`).
-/

namespace Recalc

open scoped Time

variable {κ ν : Type} {φ ψ : ℕ → ℕ}

namespace Table

section Map

variable {α : Type*} {β : Type*} {γ : Type*} [Ord α] {t : Table α β}

def map (f : β → γ) (t : Table α β) : Table α γ :=
  ⟨t.entries.map fun p => (p.1, f p.2), List.pairwise_map.mpr t.ascending⟩

theorem keys_map (f : β → γ) (t : Table α β) : (t.map f).keys = t.keys := by
  rw [keys, map, List.map_map]
  rfl

variable [Std.LawfulEqOrd α]

theorem get?_map (f : β → γ) (t : Table α β) (k : α) : (t.map f).get? k = (t.get? k).map f :=
  valueAt?_map (fun _ => f) k t.entries

theorem contains_map (f : β → γ) (t : Table α β) (k : α) :
    (t.map f).contains k = t.contains k := by
  rw [contains, get?_map, Option.isSome_map]
  rfl

variable [Std.TransOrd α]

theorem map_insert (f : β → γ) (t : Table α β) (k : α) (v : β) :
    (t.insert k v).map f = (t.map f).insert k (f v) := by
  refine ext fun j => ?_
  rw [get?_map]
  by_cases hj : j = k
  · subst hj
    rw [get?_insert_self, get?_insert_self, Option.map_some]
  · rw [get?_insert_of_ne _ hj, get?_insert_of_ne _ hj, get?_map]

theorem map_erase (f : β → γ) (t : Table α β) (k : α) : (t.erase k).map f = (t.map f).erase k := by
  refine ext fun j => ?_
  rw [get?_map]
  by_cases hj : j = k
  · subst hj
    rw [get?_erase_self, get?_erase_self, Option.map_none]
  · rw [get?_erase_of_ne _ hj, get?_erase_of_ne _ hj, get?_map]

end Map

end Table

/-! ## Times -/

namespace Time

/-- A time with its tick renamed; the two ends stay. -/
def restamp (φ : ℕ → ℕ) : Time → Time
  | earliest => earliest
  | tick n => tick (φ n)
  | latest => latest

theorem restamp_le_restamp_iff (hφ : StrictMono φ) {s t : Time} :
    s.restamp φ ≤ t.restamp φ ↔ s ≤ t := by
  cases s <;> cases t <;> simp [restamp, hφ.le_iff_le]

theorem restamp_lt_restamp_iff (hφ : StrictMono φ) {s t : Time} :
    s.restamp φ < t.restamp φ ↔ s < t :=
  not_congr (restamp_le_restamp_iff hφ)

theorem restamp_injective (hφ : StrictMono φ) : Function.Injective (restamp φ) := fun _ _ h =>
  le_antisymm ((restamp_le_restamp_iff hφ).mp (le_of_eq h))
    ((restamp_le_restamp_iff hφ).mp (le_of_eq h.symm))

theorem restamp_congr {c : Clock} (h : ∀ n ≤ c.ticks, φ n = ψ n) {t : Time} (ht : t ≤ c.now) :
    t.restamp φ = t.restamp ψ := by
  cases t with
  | earliest => rfl
  | latest => rfl
  | tick n =>
    refine congrArg tick (h n ?_)
    rw [Clock.now] at ht
    split at ht
    · exact absurd ht (not_tick_le_earliest n)
    · exact ht

end Time

/-! ## Plans -/

/-- A cell under a request at the given time, if it is code. -/
def Cell.requestedAt (id : CellId) (content : Content κ) (t : Time) : Cell κ :=
  ⟨id, content, if content.isCode then t else .earliest⟩

def Cell.restamp (φ : ℕ → ℕ) (c : Cell κ) : Cell κ :=
  .requestedAt c.id c.content (c.requested.restamp φ)

/-- The notebook under renamed requests, without its clock. -/
def Notebook.restamp (φ : ℕ → ℕ) (nb : Notebook κ) : Notebook κ :=
  ⟨nb.cells.map (Cell.restamp φ), nb.nextId, .start⟩

def Runnable.restamp (φ : ℕ → ℕ) (r : Runnable κ) : Runnable κ :=
  { r with requested := r.requested.restamp φ }

def Faulty.restamp (φ : ℕ → ℕ) (f : Faulty) : Faulty :=
  { f with requested := f.requested.restamp φ }

def Entry.restamp (φ : ℕ → ℕ) : Entry κ → Entry κ
  | .runnable r => .runnable (r.restamp φ)
  | .faulty f => .faulty (f.restamp φ)

namespace Entry

@[simp] theorem node_restamp (x : Entry κ) : (x.restamp φ).node = x.node := by
  cases x <;> rfl

@[simp] theorem id_restamp (x : Entry κ) : (x.restamp φ).id = x.id :=
  congrArg Node.id x.node_restamp

@[simp] theorem requested_restamp (x : Entry κ) :
    (x.restamp φ).requested = x.requested.restamp φ := by
  cases x <;> rfl

theorem runnable?_restamp (x : Entry κ) :
    (x.restamp φ).runnable? = x.runnable?.map (Runnable.restamp φ) := by
  cases x <;> rfl

theorem faulty?_restamp (x : Entry κ) :
    (x.restamp φ).faulty? = x.faulty?.map (Faulty.restamp φ) := by
  cases x <;> rfl

end Entry

namespace Notebook

variable {nb : Notebook κ}

theorem codeCells_restamp (φ : ℕ → ℕ) (nb : Notebook κ) :
    (nb.restamp φ).codeCells = nb.codeCells.map (Cell.restamp φ) := by
  rw [codeCells, restamp, List.filter_map]
  rfl

theorem codeIds_restamp (φ : ℕ → ℕ) (nb : Notebook κ) : (nb.restamp φ).codeIds = nb.codeIds := by
  rw [codeIds, codeCells_restamp, List.map_map]
  rfl

theorem cell?_restamp (φ : ℕ → ℕ) (nb : Notebook κ) (id : CellId) :
    (nb.restamp φ).cell? id = (nb.cell? id).map (Cell.restamp φ) := by
  rw [cell?, restamp, List.find?_map]
  rfl

end Notebook

namespace Plan

def restamp (φ : ℕ → ℕ) (plan : Plan κ) : Plan κ :=
  { plan with entries := plan.entries.map (Entry.restamp φ) }

theorem order_restamp (plan : Plan κ) : (plan.restamp φ).order = plan.order := by
  rw [order, restamp, List.map_map]
  exact List.map_congr_left fun x _ => x.id_restamp

theorem runnables_restamp (plan : Plan κ) :
    (plan.restamp φ).runnables = plan.runnables.map (Runnable.restamp φ) := by
  rw [runnables, restamp, List.filterMap_map, runnables, List.map_filterMap]
  exact List.filterMap_congr fun x _ => x.runnable?_restamp

theorem faults_restamp (plan : Plan κ) :
    (plan.restamp φ).faults = plan.faults.map (Faulty.restamp φ) := by
  rw [faults, restamp, List.filterMap_map, faults, List.map_filterMap]
  exact List.filterMap_congr fun x _ => x.faulty?_restamp

theorem isSome_runnable?_restamp (plan : Plan κ) (id : CellId) :
    ((plan.restamp φ).runnable? id).isSome = (plan.runnable? id).isSome := by
  have hfind : (plan.restamp φ).find? id = (plan.find? id).map (Entry.restamp φ) := by
    rw [find?, restamp, List.find?_map]
    refine congrArg (Option.map _) (congrArg (List.find? · plan.entries) (funext fun x => ?_))
    rw [Function.comp_apply, Entry.id_restamp]
  rw [runnable?, hfind, runnable?]
  cases plan.find? id with
  | none => rfl
  | some x => rw [Option.map_some, Option.bind_some, Option.bind_some, Entry.runnable?_restamp,
      Option.isSome_map]

theorem entryOf_restamp (g : Graph) (cycles : List (List CellId)) (id : CellId) (t : Time)
    (source : Compilation κ) :
    entryOf g cycles id (t.restamp φ) source = (entryOf g cycles id t source).restamp φ := by
  cases source with
  | error message => rfl
  | ok p =>
    rw [entryOf, entryOf]
    split <;> rfl

theorem graphOf_restamp (φ : ℕ → ℕ) (nb : Notebook κ) : graphOf (nb.restamp φ) = graphOf nb := by
  rw [graphOf, Notebook.codeCells_restamp, List.map_map]
  rfl

theorem draft_restamp (φ : ℕ → ℕ) (nb : Notebook κ) :
    draft (nb.restamp φ) = (draft nb).restamp φ := by
  rw [draft, graphOf_restamp, draft, restamp, List.map_filterMap]
  refine congrArg (Plan.mk _) (List.filterMap_congr fun id _ => ?_)
  rw [Notebook.cell?_restamp]
  cases nb.cell? id with
  | none => rfl
  | some c =>
    obtain ⟨_, content, requested⟩ := c
    cases content with
    | text body => rfl
    | code source => exact congrArg some (entryOf_restamp _ _ _ requested source)

end Plan

/-! ## What is stale and what runs -/

/-- A record whose last run answered a renamed request. -/
def Record.restamp (φ : ℕ → ℕ) (r : Record ν) : Record ν :=
  { r with answered := r.answered.restamp φ }

namespace Survey

variable {records : Records ν}

theorem recordOf_restamp (records : Records ν) (id : CellId) :
    recordOf (records.map (Record.restamp φ)) id = (recordOf records id).restamp φ := by
  rw [recordOf, Table.get?_map, recordOf]
  cases records.get? id <;> rfl

theorem dueTime_restamp (hφ : StrictMono φ) (s : Survey) (node : Node) (requested : Time)
    (r : Record ν) :
    dueTime (records.map (Record.restamp φ)) s node (requested.restamp φ) (r.restamp φ) =
      dueTime records s node requested r := by
  have hused : usedTime (records.map (Record.restamp φ)) node s = usedTime records node s := by
    funext id
    rw [usedTime, Table.contains_map]
    rfl
  have hlt : (r.restamp φ).answered < requested.restamp φ ↔ r.answered < requested :=
    Time.restamp_lt_restamp_iff hφ
  rw [dueTime, hused, dueTime, if_congr hlt rfl rfl]
  rfl

theorem visit_restamp (hφ : StrictMono φ) (s : Survey) (x : Entry κ) :
    visit (records.map (Record.restamp φ)) s (x.restamp φ) = visit records s x := by
  rw [visit, visit, Entry.id_restamp, Entry.node_restamp, Entry.requested_restamp,
    recordOf_restamp, dueTime_restamp hφ]
  rfl

theorem ofPlan_restamp (hφ : StrictMono φ) (plan : Plan κ) (records : Records ν) :
    ofPlan (plan.restamp φ) (records.map (Record.restamp φ)) = ofPlan plan records := by
  have hentries : (plan.restamp φ).entries ++ (plan.restamp φ).faults.map Entry.faulty =
      (plan.entries ++ plan.faults.map Entry.faulty).map (Entry.restamp φ) := by
    rw [Plan.faults_restamp, List.map_append, List.map_map, List.map_map]
    rfl
  rw [ofPlan, hentries, List.foldl_map, ofPlan]
  congr 1
  funext s x
  exact visit_restamp hφ s x

end Survey

namespace Choice

variable {records : Records ν}

def restamp (φ : ℕ → ℕ) (c : Choice κ) : Choice κ :=
  ⟨c.faults.map (Faulty.restamp φ), c.runnable.map (Runnable.restamp φ)⟩

theorem isCandidate_restamp (plan : Plan κ) (survey : Survey) (r : Runnable κ) :
    isCandidate (plan.restamp φ) survey (r.restamp φ) = isCandidate plan survey r := by
  simp only [isCandidate, Plan.isSome_runnable?_restamp]
  rfl

theorem hasRequest_restamp (hφ : StrictMono φ) (r : Runnable κ) :
    hasRequest (records.map (Record.restamp φ)) (r.restamp φ) = hasRequest records r := by
  rw [hasRequest, hasRequest, Bool.eq_iff_iff, bne_iff_ne, bne_iff_ne]
  refine not_congr ?_
  rw [show (r.restamp φ).node = r.node from rfl, Survey.recordOf_restamp]
  exact (Time.restamp_injective hφ).eq_iff

theorem prefer_restamp (hφ : StrictMono φ) (current candidate : Runnable κ) :
    prefer (records.map (Record.restamp φ)) (current.restamp φ) (candidate.restamp φ) =
      (prefer records current candidate).restamp φ := by
  have hlt : (current.restamp φ).requested < (candidate.restamp φ).requested ↔
      current.requested < candidate.requested := Time.restamp_lt_restamp_iff hφ
  rw [prefer, hasRequest_restamp hφ, if_congr (and_congr_right' hlt) rfl rfl, prefer]
  split <;> rfl

theorem foldl_prefer_restamp (hφ : StrictMono φ) (l : List (Runnable κ)) (r : Runnable κ) :
    (l.map (Runnable.restamp φ)).foldl (prefer (records.map (Record.restamp φ))) (r.restamp φ) =
      (l.foldl (prefer records) r).restamp φ := by
  induction l generalizing r with
  | nil => rfl
  | cons candidate rest ih =>
    rw [List.map_cons, List.foldl_cons, prefer_restamp hφ, ih, List.foldl_cons]

theorem ofSurvey_restamp (hφ : StrictMono φ) (plan : Plan κ) (survey : Survey)
    (records : Records ν) :
    ofSurvey (plan.restamp φ) survey (records.map (Record.restamp φ)) =
      (ofSurvey plan survey records).restamp φ := by
  have hfaults : ((plan.restamp φ).faults.filter fun f => survey.isStale f.node.id) =
      (plan.faults.filter fun f => survey.isStale f.node.id).map (Faulty.restamp φ) := by
    rw [Plan.faults_restamp, List.filter_map]
    rfl
  have hcandidates : (plan.restamp φ).runnables.filter (isCandidate (plan.restamp φ) survey) =
      (plan.runnables.filter (isCandidate plan survey)).map (Runnable.restamp φ) := by
    rw [Plan.runnables_restamp, List.filter_map]
    exact congrArg (List.map _)
      (List.filter_congr fun r _ => isCandidate_restamp plan survey r)
  rw [ofSurvey, hfaults, hcandidates, ofSurvey, restamp]
  refine congrArg (Choice.mk _) ?_
  cases plan.runnables.filter (isCandidate plan survey) with
  | nil => rfl
  | cons first rest => exact congrArg some (foldl_prefer_restamp hφ rest first)

end Choice

/-! ## Calls -/

namespace Notebook

variable {nb nb' : Notebook κ} {id : CellId}

theorem restamp_congr (hV : nb.Valid) (h : ∀ n ≤ nb.clock.ticks, φ n = ψ n) :
    nb.restamp φ = nb.restamp ψ := by
  have hcells : nb.cells.map (Cell.restamp φ) = nb.cells.map (Cell.restamp ψ) :=
    List.map_congr_left fun c hc =>
      congrArg (Cell.requestedAt c.id c.content) (Time.restamp_congr h (hV.requested_le c hc))
  rw [restamp, hcells, restamp]

theorem contains_restamp (φ : ℕ → ℕ) (nb : Notebook κ) (id : CellId) :
    (nb.restamp φ).contains id = nb.contains id := by
  rw [contains, cell?_restamp, Option.isSome_map]
  rfl

theorem refusal?_restamp (φ : ℕ → ℕ) (nb : Notebook κ) (call : Call κ) :
    (nb.restamp φ).refusal? call = nb.refusal? call := by
  have hnextId : (nb.restamp φ).nextId = nb.nextId := rfl
  cases call <;> simp only [refusal?, insertRefusal?, missing?, contains_restamp, hnextId]

theorem subject_restamp (φ : ℕ → ℕ) (nb : Notebook κ) (call : Call κ) :
    (nb.restamp φ).subject call = nb.subject call := by
  cases call <;> rfl

theorem restamp_append (φ : ℕ → ℕ) (nb : Notebook κ) (id nextId : CellId) (content : Content κ) :
    (nb.append id nextId content).restamp φ =
      ⟨(nb.restamp φ).cells ++ [.requestedAt id content (.tick (φ nb.clock.advance.ticks))],
        nextId, .start⟩ := by
  cases content with
  | text body => exact congrArg (Notebook.mk · _ _) List.map_append
  | code source => exact congrArg (Notebook.mk · _ _) List.map_append

theorem restamp_request (φ : ℕ → ℕ) (nb : Notebook κ) (id : CellId)
    (change : Content κ → Content κ) :
    (nb.request id change).restamp φ =
      { nb.restamp φ with
        cells := (nb.restamp φ).cells.map fun c =>
          if c.id = id then
            .requestedAt c.id (change c.content) (.tick (φ nb.clock.advance.ticks))
          else c } := by
  rw [request, restamp, restamp]
  simp only [List.map_map, mk.injEq, and_true]
  refine List.map_congr_left fun c _ => ?_
  rw [Function.comp_apply, Function.comp_apply]
  split
  · next hc => exact (if_pos hc).symm
  · next hc => exact (if_neg hc).symm

theorem restamp_remove (φ : ℕ → ℕ) (nb : Notebook κ) (id : CellId) :
    (nb.remove id).restamp φ =
      { nb.restamp φ with cells := (nb.restamp φ).cells.filter fun c => c.id != id } := by
  rw [remove, restamp, restamp]
  simp only [List.filter_map, mk.injEq, and_true]
  rfl

/-- Notebooks that agree up to the ticks of their requests agree after a call too, if the ticks that
it takes are renamed to one. -/
theorem restamp_apply_congr (h : nb.restamp φ = nb'.restamp ψ)
    (hnext : φ nb.clock.advance.ticks = ψ nb'.clock.advance.ticks) (call : Call κ) :
    (nb.apply call).restamp φ = (nb'.apply call).restamp ψ := by
  have hnextId : nb.nextId = nb'.nextId := show (nb.restamp φ).nextId = _ from h ▸ rfl
  have hpush (id : CellId) (content : Content κ) :
      (nb.push id content).restamp φ = (nb'.push id content).restamp ψ := by
    rw [push, push, hnextId]
    split
    · exact h
    · rw [restamp_append, h, hnext, restamp_append]
  have hrequest (id : CellId) (change : Content κ → Content κ) :
      (nb.request id change).restamp φ = (nb'.request id change).restamp ψ := by
    rw [restamp_request, h, hnext, restamp_request]
  cases call with
  | addCode source =>
    rw [apply, add, hnextId]
    exact hpush _ (.code source)
  | addText body =>
    rw [apply, add, hnextId]
    exact hpush _ (.text body)
  | insert id content =>
    have hcontains : nb.contains id = nb'.contains id := by
      rw [← contains_restamp φ, h, contains_restamp]
    rw [apply, Notebook.insert, apply, Notebook.insert, hcontains]
    split
    · exact h
    · exact hpush id content
  | updateCode id source => exact hrequest id fun _ => .code source
  | requestRun id => exact hrequest id fun content => content
  | remove id => rw [apply, restamp_remove, h, apply, restamp_remove]

def takesTick (nb : Notebook κ) : Call κ → Bool
  | .addCode _ => (overflow? nb.nextId).isNone
  | .addText _ => false
  | .insert id content => content.isCode && (nb.insertRefusal? id).isNone
  | .updateCode _ _ => true
  | .requestRun _ => true
  | .remove _ => false

theorem clock_push (nb : Notebook κ) (id : CellId) (content : Content κ) :
    (nb.push id content).clock =
      if content.isCode && (overflow? id).isNone then nb.clock.advance else nb.clock := by
  rw [push, overflow?]
  cases id.next? <;> cases content <;> rfl

theorem clock_apply (nb : Notebook κ) (call : Call κ) :
    (nb.apply call).clock = if nb.takesTick call then nb.clock.advance else nb.clock := by
  cases call with
  | addCode source => exact clock_push nb nb.nextId (.code source)
  | addText body => exact clock_push nb nb.nextId (.text body)
  | insert id content =>
    rw [apply, Notebook.insert, takesTick, insertRefusal?]
    split
    · simp
    · exact clock_push nb id content
  | updateCode id source => rfl
  | requestRun id => rfl
  | remove id => rfl

theorem takesTick_restamp (φ : ℕ → ℕ) (nb : Notebook κ) (call : Call κ) :
    (nb.restamp φ).takesTick call = nb.takesTick call := by
  cases call with
  | insert id content =>
    have hrefusal : (nb.restamp φ).insertRefusal? id = nb.insertRefusal? id :=
      refusal?_restamp φ nb (.insert id content)
    rw [takesTick, hrefusal, takesTick]
  | _ => rfl

def asksText (nb : Notebook κ) : Call κ → Bool
  | .requestRun id => !nb.hasCode id
  | _ => false

/-- Whether a call is refused, or asks for a run of text. -/
def ignores (nb : Notebook κ) (call : Call κ) : Bool :=
  (nb.refusal? call).isSome || nb.asksText call

theorem restamp_requestRun_of_text (φ : ℕ → ℕ) (hid : id ∉ nb.codeIds) :
    (nb.requestRun id).restamp φ = nb.restamp φ := by
  rw [requestRun, restamp_request]
  refine congrArg (Notebook.mk · _ _) ((List.map_congr_left fun c hc => ?_).trans (List.map_id _))
  obtain ⟨d, hd, rfl⟩ := List.mem_map.mp hc
  split
  · next heq =>
    -- the cell that is asked for is text, and a request of text is not kept
    have htext : d.content.isCode = false := by
      by_contra hcode
      exact hid (mem_codeIds_iff.mpr ⟨d, hd, Bool.not_eq_false _ ▸ hcode, heq⟩)
    simp [Cell.restamp, Cell.requestedAt, htext]
  · rfl

theorem restamp_apply_of_ignores (φ : ℕ → ℕ) {call : Call κ} (h : nb.ignores call = true) :
    (nb.apply call).restamp φ = nb.restamp φ := by
  rw [ignores, Bool.or_eq_true] at h
  rcases h with hrefusal | htext
  · obtain ⟨r, hr⟩ := Option.isSome_iff_exists.mp hrefusal
    rw [apply_of_refusal hr]
    rfl
  · cases call with
    | requestRun id =>
      refine restamp_requestRun_of_text φ fun hid => ?_
      rw [asksText, hasCode_iff.mpr hid] at htext
      cases htext
    | addCode _ => cases htext
    | addText _ => cases htext
    | insert _ _ => cases htext
    | updateCode _ _ => cases htext
    | remove _ => cases htext

end Notebook

end Recalc
