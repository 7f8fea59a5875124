import Mathlib.Data.List.Nodup
import Recalc.Notebook.Basic
import Recalc.Proofs.Time

/-!
# Notebooks through their calls

Calls keep a notebook valid: numbers are distinct, and every code cell has been requested, at a tick
that the clock has given out. They also leave traces of all they change, because a cell that is added
or changed is requested at a new tick: code cells requested no later than some earlier moment stood in
the notebook at that moment, unchanged and in the same order (`Notebook.Continues`). One call touches
one cell and requests it (`Notebook.filter_codeCells_apply`, `Notebook.Valid.requested_subject`); a call
that is refused touches at most the clock (`Notebook.apply_of_refusal`).
-/

namespace Recalc

open scoped Time

/-- Whether a call asks for a run of a cell that stands in the notebook. -/
def Call.asksAgain {κ : Type} : Call κ → Bool
  | .updateCode _ _ => true
  | .requestRun _ => true
  | _ => false

namespace Notebook

variable {κ : Type}

def replay (nb : Notebook κ) (calls : List (Call κ)) : Notebook κ := calls.foldl apply nb

theorem replay_append (nb : Notebook κ) (before after : List (Call κ)) :
    nb.replay (before ++ after) = (nb.replay before).replay after := List.foldl_append

structure Valid (nb : Notebook κ) : Prop where
  nodup : nb.ids.Nodup
  number_lt : ∀ c ∈ nb.cells, c.id.number < nb.nextId.number
  nextId_lt : nb.nextId.number < CellId.bound
  requested_le : ∀ c ∈ nb.cells, c.requested ≤ nb.clock.now
  requested_pos : ∀ c ∈ nb.codeCells, .earliest < c.requested

theorem mem_codeCells_iff {nb : Notebook κ} {c : Cell κ} :
    c ∈ nb.codeCells ↔ c ∈ nb.cells ∧ c.isCode = true := List.mem_filter

theorem valid_empty : (empty : Notebook κ).Valid where
  nodup := List.nodup_nil
  number_lt := by simp [empty]
  nextId_lt := Nat.pow_pos Nat.two_pos
  requested_le := by simp [empty]
  requested_pos := by simp [empty, codeCells]

/-- Code is appended with a request at the next tick, text without one. -/
theorem cells_append (nb : Notebook κ) (id nextId : CellId) (content : Content κ) :
    (nb.append id nextId content).cells = nb.cells ++
      [⟨id, content, if content.isCode then nb.clock.advance.now else .earliest⟩] := by
  cases content <;> rfl

theorem nextId_append (nb : Notebook κ) (id nextId : CellId) (content : Content κ) :
    (nb.append id nextId content).nextId = nextId := by
  cases content <;> rfl

theorem of_mem_append {nb : Notebook κ} {id nextId : CellId} {content : Content κ} {c : Cell κ}
    (hc : c ∈ (nb.append id nextId content).cells) :
    c ∈ nb.cells ∨
      c = ⟨id, content, if content.isCode then nb.clock.advance.now else .earliest⟩ := by
  rw [cells_append, List.mem_append, List.mem_singleton] at hc
  exact hc

theorem of_mem_push {nb : Notebook κ} {id : CellId} {content : Content κ} {c : Cell κ}
    (hc : c ∈ (nb.push id content).cells) :
    c ∈ nb.cells ∨
      c = ⟨id, content, if content.isCode then nb.clock.advance.now else .earliest⟩ := by
  rw [push] at hc
  split at hc
  · exact Or.inl hc
  · exact of_mem_append hc

theorem now_le_now_append (nb : Notebook κ) (id nextId : CellId) (content : Content κ) :
    nb.clock.now ≤ (nb.append id nextId content).clock.now := by
  cases content with
  | text body => exact le_rfl
  | code source => exact le_of_lt nb.clock.now_lt_now_advance

theorem of_mem_request {nb : Notebook κ} {id : CellId} {change : Content κ → Content κ} {c : Cell κ}
    (hc : c ∈ (nb.request id change).cells) :
    c ∈ nb.cells ∧ c.id ≠ id ∨ c.id = id ∧ id ∈ nb.ids ∧ c.requested = nb.clock.advance.now := by
  obtain ⟨d, hd, rfl⟩ := List.mem_map.mp hc
  split
  · next hid => exact Or.inr ⟨hid, List.mem_map.mpr ⟨d, hd, hid⟩, rfl⟩
  · next hid => exact Or.inl ⟨hd, hid⟩

section Valid

variable {nb : Notebook κ}

theorem Valid.append (h : nb.Valid) {id nextId : CellId} (hid : id ∉ nb.ids)
    (hlt : id.number < nextId.number) (hle : nb.nextId.number ≤ nextId.number)
    (hbound : nextId.number < CellId.bound) (content : Content κ) :
    (nb.append id nextId content).Valid := by
  refine ⟨?_, ?_, by rwa [nextId_append], ?_, ?_⟩
  · rw [ids_append]
    exact List.nodup_append.mpr ⟨h.nodup, by simp, by
      rintro a ha b hb rfl
      exact hid (List.mem_singleton.mp hb ▸ ha)⟩
  · intro c hc
    rw [nextId_append]
    rcases of_mem_append hc with hc | rfl
    · exact Nat.lt_of_lt_of_le (h.number_lt c hc) hle
    · exact hlt
  · intro c hc
    rcases of_mem_append hc with hc | rfl
    · exact le_trans (h.requested_le c hc) (now_le_now_append nb id nextId content)
    · cases content with
      | text body => exact Time.earliest_le _
      | code source => exact le_rfl
  · intro c hc
    obtain ⟨hc, hcode⟩ := mem_codeCells_iff.mp hc
    rcases of_mem_append hc with hc | rfl
    · exact h.requested_pos c (mem_codeCells_iff.mpr ⟨hc, hcode⟩)
    · have hcontent : content.isCode = true := hcode
      dsimp only
      rw [if_pos hcontent]
      exact Clock.earliest_lt_now_advance _

theorem Valid.request (h : nb.Valid) (id : CellId) (change : Content κ → Content κ) :
    (nb.request id change).Valid := by
  refine ⟨by rw [ids_request]; exact h.nodup, ?_, h.nextId_lt, ?_, ?_⟩
  · intro c hc
    rcases of_mem_request hc with ⟨hc, _⟩ | ⟨rfl, hid, _⟩
    · exact h.number_lt c hc
    · obtain ⟨d, hd, hdc⟩ := List.mem_map.mp hid
      exact hdc ▸ h.number_lt d hd
  · intro c hc
    rcases of_mem_request hc with ⟨hc, _⟩ | ⟨_, _, hreq⟩
    · exact le_of_lt (Clock.lt_now_advance_of_le (h.requested_le c hc))
    · exact le_of_eq hreq
  · intro c hc
    obtain ⟨hc, hcode⟩ := mem_codeCells_iff.mp hc
    rcases of_mem_request hc with ⟨hc, _⟩ | ⟨_, _, hreq⟩
    · exact h.requested_pos c (mem_codeCells_iff.mpr ⟨hc, hcode⟩)
    · exact hreq ▸ Clock.earliest_lt_now_advance _

theorem Valid.remove (h : nb.Valid) (id : CellId) : (nb.remove id).Valid := by
  have hsub : ∀ c ∈ (nb.remove id).cells, c ∈ nb.cells := fun c hc => (List.mem_filter.mp hc).1
  refine ⟨by rw [ids_remove]; exact h.nodup.filter _, fun c hc => h.number_lt c (hsub c hc),
    h.nextId_lt, fun c hc => h.requested_le c (hsub c hc), fun c hc => ?_⟩
  obtain ⟨hc, hcode⟩ := mem_codeCells_iff.mp hc
  exact h.requested_pos c (mem_codeCells_iff.mpr ⟨hsub c hc, hcode⟩)

theorem Valid.nextId_notMem (h : nb.Valid) : nb.nextId ∉ nb.ids := by
  intro hid
  obtain ⟨c, hc, hcid⟩ := List.mem_map.mp hid
  exact Nat.lt_irrefl _ (hcid ▸ h.number_lt c hc)

theorem Valid.push (h : nb.Valid) {id : CellId} (hid : id ∉ nb.ids) (content : Content κ) :
    (nb.push id content).Valid := by
  rw [Notebook.push]
  split
  · exact h
  · next after hnext =>
    obtain ⟨hlt, rfl⟩ := CellId.next?_eq_some_iff.mp hnext
    exact h.append hid (by dsimp only; omega) (Nat.le_max_left _ _)
      (Nat.max_lt.mpr ⟨h.nextId_lt, hlt⟩) content

theorem Valid.add (h : nb.Valid) (content : Content κ) : (nb.add content).Valid :=
  h.push h.nextId_notMem content

theorem Valid.insert (h : nb.Valid) (id : CellId) (content : Content κ) :
    (nb.insert id content).Valid := by
  rw [Notebook.insert]
  split
  · exact h
  · next hfree => exact h.push (mt contains_iff.mpr hfree) content

theorem Valid.apply (h : nb.Valid) (call : Call κ) : (nb.apply call).Valid := by
  cases call with
  | addCode source => exact h.add _
  | addText body => exact h.add _
  | insert id content => exact h.insert id content
  | updateCode id source => exact h.request id fun _ => .code source
  | requestRun id => exact h.request id fun content => content
  | remove id => exact h.remove id

theorem Valid.replay (h : nb.Valid) (calls : List (Call κ)) : (nb.replay calls).Valid := by
  induction calls generalizing nb with
  | nil => exact h
  | cons call rest ih => exact ih (h.apply call)

theorem Valid.nodup_codeIds (h : nb.Valid) : nb.codeIds.Nodup :=
  h.nodup.sublist (List.filter_sublist.map Cell.id)

theorem Valid.cell?_eq_some (h : nb.Valid) {c : Cell κ} (hc : c ∈ nb.cells) :
    nb.cell? c.id = some c := by
  rw [cell?, List.find?_eq_some_iff_append]
  refine ⟨beq_self_eq_true _, ?_⟩
  obtain ⟨before, after, heq⟩ := List.append_of_mem hc
  refine ⟨before, after, heq, fun d hd => ?_⟩
  have hnodup := h.nodup
  rw [ids, heq, List.map_append, List.nodup_append] at hnodup
  have hne := hnodup.2.2 d.id (List.mem_map_of_mem hd) c.id (by simp)
  simpa using hne

theorem Valid.eq_of_id_eq (h : nb.Valid) {c d : Cell κ} (hc : c ∈ nb.codeCells)
    (hd : d ∈ nb.codeCells) (heq : c.id = d.id) : c = d := by
  have hcd := h.cell?_eq_some (mem_codeCells_iff.mp hc).1
  rw [heq, h.cell?_eq_some (mem_codeCells_iff.mp hd).1] at hcd
  exact (Option.some.inj hcd).symm

end Valid

/-! ## What later notebooks keep -/

/-- A later notebook holds the code cells that have not been requested since in the order in which
they stood. -/
structure Continues (past nb : Notebook κ) : Prop where
  ticks_le : past.clock.ticks ≤ nb.clock.ticks
  sublist : (nb.codeCells.filter fun c => decide (c.requested ≤ past.clock.now)).Sublist
    past.codeCells

theorem Continues.refl (nb : Notebook κ) : nb.Continues nb := ⟨Nat.le_refl _, List.filter_sublist⟩

theorem Continues.trans {past nb later : Notebook κ} (h : past.Continues nb)
    (h' : nb.Continues later) : past.Continues later := by
  refine ⟨Nat.le_trans h.ticks_le h'.ticks_le, ?_⟩
  have hle : past.clock.now ≤ nb.clock.now := Clock.now_le_now_iff.mpr h.ticks_le
  have hsplit : (later.codeCells.filter fun c => decide (c.requested ≤ past.clock.now)) =
      (later.codeCells.filter fun c => decide (c.requested ≤ nb.clock.now)).filter
        fun c => decide (c.requested ≤ past.clock.now) := by
    rw [List.filter_filter]
    refine List.filter_congr fun c _ => ?_
    by_cases hc : c.requested ≤ past.clock.now
    · simp [hc, le_trans hc hle]
    · simp [hc]
  rw [hsplit]
  exact (h'.sublist.filter _).trans h.sublist

section Calls

variable {nb : Notebook κ}

theorem codeCells_append_text (nb : Notebook κ) (id nextId : CellId) (body : String) :
    (nb.append id nextId (.text body)).codeCells = nb.codeCells := by
  simp [append, codeCells, Cell.isCode, Content.isCode]

theorem codeCells_append_code (nb : Notebook κ) (id nextId : CellId) (source : Compilation κ) :
    (nb.append id nextId (.code source)).codeCells =
      nb.codeCells ++ [⟨id, .code source, nb.clock.advance.now⟩] := by
  simp [append, codeCells, Cell.isCode, Content.isCode]

theorem continues_append (nb : Notebook κ) (id nextId : CellId) (content : Content κ) :
    nb.Continues (nb.append id nextId content) := by
  cases content with
  | text body =>
    refine ⟨Nat.le_refl _, ?_⟩
    rw [codeCells_append_text]
    exact List.filter_sublist
  | code source =>
    refine ⟨Nat.le_succ _, ?_⟩
    have hnew : ¬ nb.clock.advance.now ≤ nb.clock.now :=
      not_le_of_gt nb.clock.now_lt_now_advance
    rw [codeCells_append_code, List.filter_append, List.filter_cons_of_neg (by simpa using hnew),
      List.filter_nil, List.append_nil]
    exact List.filter_sublist

theorem continues_request (nb : Notebook κ) (id : CellId) (change : Content κ → Content κ) :
    nb.Continues (nb.request id change) := by
  refine ⟨Nat.le_succ _, ?_⟩
  have hnew : ¬ nb.clock.advance.now ≤ nb.clock.now := not_le_of_gt nb.clock.now_lt_now_advance
  rw [codeCells, request, codeCells, List.filter_filter]
  generalize nb.cells = cells
  induction cells with
  | nil => exact List.Sublist.slnil
  | cons c rest ih =>
    by_cases hc : c.id = id
    · rw [List.map_cons, if_pos hc, List.filter_cons_of_neg (by simp [hnew])]
      exact ih.trans ((List.sublist_cons_self c rest).filter _)
    · rw [List.map_cons, if_neg hc]
      by_cases hcode : c.isCode = true
      · rw [List.filter_cons_of_pos hcode]
        by_cases hle : c.requested ≤ nb.clock.now
        · rw [List.filter_cons_of_pos (by simp [hle, hcode])]
          exact ih.cons_cons c
        · rw [List.filter_cons_of_neg (by simp [hle])]
          exact ih.cons c
      · rw [List.filter_cons_of_neg hcode, List.filter_cons_of_neg (by simp [hcode])]
        exact ih

theorem continues_remove (nb : Notebook κ) (id : CellId) : nb.Continues (nb.remove id) :=
  ⟨Nat.le_refl _, List.filter_sublist.trans (List.filter_sublist.filter _)⟩

theorem continues_push (nb : Notebook κ) (id : CellId) (content : Content κ) :
    nb.Continues (nb.push id content) := by
  rw [push]
  split
  · exact .refl nb
  · exact continues_append nb _ _ _

theorem continues_apply (nb : Notebook κ) (call : Call κ) : nb.Continues (nb.apply call) := by
  cases call with
  | addCode source => exact continues_push nb nb.nextId (.code source)
  | addText body => exact continues_push nb nb.nextId (.text body)
  | insert id content =>
    rw [apply, Notebook.insert]
    split
    · exact .refl nb
    · exact continues_push nb id content
  | updateCode id source => exact continues_request nb id fun _ => .code source
  | requestRun id => exact continues_request nb id fun content => content
  | remove id => exact continues_remove nb id

end Calls

theorem continues_replay (nb : Notebook κ) (calls : List (Call κ)) :
    nb.Continues (nb.replay calls) := by
  induction calls generalizing nb with
  | nil => exact .refl nb
  | cons call rest ih => exact (continues_apply nb call).trans (ih (nb.apply call))

/-! ## Refused calls -/

section Refused

variable {nb : Notebook κ} {id : CellId}

theorem notMem_of_missing? {r : Refusal} (h : nb.missing? id = some r) : id ∉ nb.ids := by
  intro hid
  rw [missing?, if_pos (contains_iff.mpr hid)] at h
  cases h

theorem mem_of_missing? (h : nb.missing? id = none) : id ∈ nb.ids := by
  by_contra hid
  rw [missing?, if_neg (contains_iff.not.mpr hid)] at h
  cases h

theorem request_of_notMem (hid : id ∉ nb.ids) (change : Content κ → Content κ) :
    nb.request id change = { nb with clock := nb.clock.advance } := by
  have hcells : (nb.request id change).cells = nb.cells := by
    refine (List.map_congr_left fun c hc => if_neg fun heq => hid ?_).trans (List.map_id _)
    exact heq ▸ List.mem_map_of_mem hc
  rw [← hcells]
  rfl

theorem remove_of_notMem (hid : id ∉ nb.ids) : nb.remove id = nb := by
  have hcells : (nb.cells.filter fun c => c.id != id) = nb.cells :=
    List.filter_eq_self.mpr fun c hc => bne_iff_ne.mpr fun heq =>
      hid (heq ▸ List.mem_map_of_mem hc)
  rw [remove, hcells]

theorem insert_of_refusal {r : Refusal} (h : nb.insertRefusal? id = some r) (content : Content κ) :
    nb.insert id content = nb := by
  rw [insertRefusal?] at h
  rw [Notebook.insert]
  split
  · rfl
  · next hfree =>
    rw [if_neg hfree] at h
    exact push_of_overflow h content

/-- A refused call changes nothing, but for a tick taken to ask for a cell that is missing. -/
theorem apply_of_refusal {call : Call κ} {r : Refusal} (h : nb.refusal? call = some r) :
    nb.apply call = { nb with clock := if call.asksAgain then nb.clock.advance else nb.clock } := by
  cases call with
  | addCode source => exact push_of_overflow h (.code source)
  | addText body => exact push_of_overflow h (.text body)
  | insert id content => exact insert_of_refusal h content
  | updateCode id source => exact request_of_notMem (notMem_of_missing? h) fun _ => .code source
  | requestRun id => exact request_of_notMem (notMem_of_missing? h) fun content => content
  | remove id => exact remove_of_notMem (notMem_of_missing? h)

/-- Where the counter stands at the last number of all, nothing can be added. -/
example :
    let nb : Notebook Unit := empty.apply (.insert ⟨CellId.bound - 2⟩ (.text "last"))
    nb.nextId.number + 1 = CellId.bound ∧
      nb.refusal? (.addText "more") = some (.cellIdOverflow nb.nextId) ∧
      nb.apply (.addText "more") = nb :=
  ⟨rfl, rfl, rfl⟩

end Refused

/-- The code cells that have not been requested since an earlier moment. -/
def unchangedIds (past nb : Notebook κ) : List CellId :=
  (nb.codeCells.filter fun c => decide (c.requested ≤ past.clock.now)).map Cell.id

theorem filter_of_sublist {l m : List (Cell κ)} (h : l.Sublist m) (hm : (m.map Cell.id).Nodup) :
    (m.filter fun c => decide (c.id ∈ l.map Cell.id)) = l := by
  induction h with
  | slnil => rfl
  | @cons l m c hsub ih =>
    obtain ⟨hc, hm⟩ := List.nodup_cons.mp hm
    have hnew : c.id ∉ l.map Cell.id := fun hl => hc ((hsub.map Cell.id).subset hl)
    rw [List.filter_cons_of_neg (by simpa using hnew), ih hm]
  | @cons_cons l m c hsub ih =>
    obtain ⟨hc, hm⟩ := List.nodup_cons.mp hm
    rw [List.filter_cons_of_pos (by simp)]
    congr 1
    refine (List.filter_congr fun d hd => ?_).trans (ih hm)
    have hdc : d.id ≠ c.id := fun he => hc (he ▸ List.mem_map_of_mem hd)
    simp [hdc]

theorem Continues.filter_unchanged {past nb : Notebook κ} (h : past.Continues nb)
    (hpast : past.Valid) (hnb : nb.Valid) :
    (nb.codeCells.filter fun c => decide (c.id ∈ unchangedIds past nb)) =
      past.codeCells.filter fun c => decide (c.id ∈ unchangedIds past nb) := by
  rw [unchangedIds, filter_of_sublist h.sublist hpast.nodup_codeIds,
    filter_of_sublist List.filter_sublist hnb.nodup_codeIds]

theorem mem_unchangedIds_iff {past nb : Notebook κ} {id : CellId} :
    id ∈ unchangedIds past nb ↔
      ∃ c ∈ nb.codeCells, c.requested ≤ past.clock.now ∧ c.id = id := by
  simp [unchangedIds, and_assoc]

theorem Continues.mem_past {past nb : Notebook κ} (h : past.Continues nb) {c : Cell κ}
    (hc : c ∈ nb.codeCells) (hle : c.requested ≤ past.clock.now) : c ∈ past.codeCells :=
  h.sublist.subset (List.mem_filter.mpr ⟨hc, decide_eq_true hle⟩)

theorem Continues.mem_past_of_unchanged {past nb : Notebook κ} (h : past.Continues nb)
    (hnb : nb.Valid) {c : Cell κ} (hc : c ∈ nb.codeCells) (hid : c.id ∈ unchangedIds past nb) :
    c ∈ past.codeCells := by
  obtain ⟨d, hd, hle, hdc⟩ := mem_unchangedIds_iff.mp hid
  exact h.mem_past hc (hnb.eq_of_id_eq hd hc hdc ▸ hle)

/-! ## The cell of a call -/

/-- The cell that a call adds, changes, asks for or removes. -/
def subject (nb : Notebook κ) : Call κ → CellId
  | .addCode _ => nb.nextId
  | .addText _ => nb.nextId
  | .insert id _ => id
  | .updateCode id _ => id
  | .requestRun id => id
  | .remove id => id

section Subject

variable {nb : Notebook κ} {id : CellId}

theorem filter_codeCells_append (nb : Notebook κ) (id nextId : CellId) (content : Content κ) :
    ((nb.append id nextId content).codeCells.filter fun c => c.id != id) =
      nb.codeCells.filter fun c => c.id != id := by
  cases content <;> simp [append, codeCells, Cell.isCode, Content.isCode]

theorem filter_codeCells_request (nb : Notebook κ) (id : CellId)
    (change : Content κ → Content κ) :
    ((nb.request id change).codeCells.filter fun c => c.id != id) =
      nb.codeCells.filter fun c => c.id != id := by
  rw [codeCells, request, codeCells]
  induction nb.cells with
  | nil => rfl
  | cons c rest ih =>
    rw [List.filter_filter, List.filter_filter] at ih ⊢
    by_cases hc : c.id = id
    · rw [List.map_cons, if_pos hc, List.filter_cons_of_neg (by simp [hc]),
        List.filter_cons_of_neg (by simp [hc]), ih]
    · rw [List.map_cons, if_neg hc, List.filter_cons, List.filter_cons, ih]

theorem filter_codeCells_push (nb : Notebook κ) (id : CellId) (content : Content κ) :
    ((nb.push id content).codeCells.filter fun c => c.id != id) =
      nb.codeCells.filter fun c => c.id != id := by
  rw [push]
  split
  · rfl
  · exact filter_codeCells_append nb _ _ _

/-- A call leaves all code cells but its own where and as they are. -/
theorem filter_codeCells_apply (nb : Notebook κ) (call : Call κ) :
    ((nb.apply call).codeCells.filter fun c => c.id != nb.subject call) =
      nb.codeCells.filter fun c => c.id != nb.subject call := by
  cases call with
  | addCode source => exact filter_codeCells_push nb _ _
  | addText body => exact filter_codeCells_push nb _ _
  | insert id content =>
    rw [apply, Notebook.insert]
    split
    · rfl
    · exact filter_codeCells_push nb id content
  | updateCode id source => exact filter_codeCells_request nb id fun _ => .code source
  | requestRun id => exact filter_codeCells_request nb id fun content => content
  | remove id =>
    simp only [apply, subject, remove, codeCells, List.filter_filter]
    exact List.filter_congr fun c _ => by cases c.id != id <;> simp

theorem requested_push {content : Content κ} (hid : id ∉ nb.ids) {c : Cell κ}
    (hc : c ∈ (nb.push id content).codeCells) (hcid : c.id = id) :
    c.requested = nb.clock.advance.now := by
  obtain ⟨hc, hcode⟩ := mem_codeCells_iff.mp hc
  rcases of_mem_push hc with hold | rfl
  · exact absurd (List.mem_map.mpr ⟨c, hold, hcid⟩) hid
  · exact if_pos hcode

theorem requested_request {change : Content κ → Content κ} {c : Cell κ}
    (hc : c ∈ (nb.request id change).codeCells) (hcid : c.id = id) :
    c.requested = nb.clock.advance.now := by
  rcases of_mem_request (mem_codeCells_iff.mp hc).1 with ⟨_, hne⟩ | ⟨_, _, hreq⟩
  · exact absurd hcid hne
  · exact hreq

/-- After a call that was not refused its cell, if it is code, is requested at the next tick. -/
theorem Valid.requested_subject (h : nb.Valid) {call : Call κ} (hrefusal : nb.refusal? call = none)
    {c : Cell κ} (hc : c ∈ (nb.apply call).codeCells) (hcid : c.id = nb.subject call) :
    c.requested = nb.clock.advance.now := by
  cases call with
  | addCode source => exact requested_push h.nextId_notMem hc hcid
  | addText body => exact requested_push h.nextId_notMem hc hcid
  | insert id content =>
    have hid := (insertRefusal?_eq_none_iff.mp hrefusal).1
    rw [Notebook.apply, insert_of_notMem hid] at hc
    exact requested_push hid hc hcid
  | updateCode id source => exact requested_request hc hcid
  | requestRun id => exact requested_request hc hcid
  | remove id =>
    have hne := (List.mem_filter.mp (mem_codeCells_iff.mp hc).1).2
    rw [hcid] at hne
    simp [subject] at hne

end Subject

end Notebook

end Recalc
