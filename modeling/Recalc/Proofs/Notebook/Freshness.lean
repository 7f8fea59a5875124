import Mathlib.Data.List.Infix
import Recalc.Proofs.Notebook

/-!
# What a notebook never uses twice

A number that the notebook hands out has never been the number of one of its cells, for the next number
stays above all of them. A request made at a tick belongs to one cell for ever, for each request takes a
new tick: this holds of two cells of one notebook as of two that stood in it at different moments
(`RequestsApart`). The cell that was asked for last is therefore requested later than every other
(`AskedLast.isNewest`).

All of it follows from what one call can do: the cell of a call is new or asked for at the next tick,
and every other cell was there before (`Valid.of_mem_apply`). The last number below `CellId.bound` is
given to no cell: when it comes next, adding is refused.
-/

namespace Recalc

open scoped Time

variable {κ : Type}

/-- Whether a call adds or changes code, or asks for a run. -/
def Call.asksRun : Call κ → Bool
  | .addCode _ => true
  | .addText _ => false
  | .insert _ content => content.isCode
  | .updateCode _ _ => true
  | .requestRun _ => true
  | .remove _ => false

namespace Notebook

variable {past nb : Notebook κ} {id : CellId} {call : Call κ} {c : Cell κ}

theorem apart_of_mem_push {content : Content κ} (hid : id ∉ nb.ids)
    (hc : c ∈ (nb.push id content).cells) :
    c ∈ nb.cells ∧ c.id ≠ id ∨
      c.id = id ∧ c.requested = if content.isCode then nb.clock.advance.now else .earliest := by
  rcases of_mem_push hc with hc | rfl
  · exact Or.inl ⟨hc, fun he => hid (he ▸ List.mem_map_of_mem hc)⟩
  · exact Or.inr ⟨rfl, rfl⟩

/-- The cells after a call that is not refused: those of other numbers stood there before, and the cell
of the call is asked for at the next tick, or is text that nobody has asked for. -/
theorem Valid.of_mem_apply (h : nb.Valid) (hrefusal : nb.refusal? call = none)
    (hc : c ∈ (nb.apply call).cells) :
    c ∈ nb.cells ∧ c.id ≠ nb.subject call ∨
      c.id = nb.subject call ∧
        c.requested = if call.asksRun then nb.clock.advance.now else .earliest := by
  cases call with
  | addCode source => exact apart_of_mem_push h.nextId_notMem hc
  | addText body => exact apart_of_mem_push h.nextId_notMem hc
  | insert id content =>
    have hid := (insertRefusal?_eq_none_iff.mp hrefusal).1
    rw [Notebook.apply, insert_of_notMem hid] at hc
    exact apart_of_mem_push hid hc
  | updateCode id source => exact (of_mem_request hc).imp_right (And.imp_right And.right)
  | requestRun id => exact (of_mem_request hc).imp_right (And.imp_right And.right)
  | remove id =>
    obtain ⟨hc, hne⟩ := List.mem_filter.mp hc
    exact Or.inl ⟨hc, bne_iff_ne.mp hne⟩

theorem Valid.of_mem_apply_of_requested (h : nb.Valid) (hc : c ∈ (nb.apply call).cells)
    (hpos : c.requested ≠ .earliest) :
    c ∈ nb.cells ∨ c.id = nb.subject call ∧ c.requested = nb.clock.advance.now := by
  cases hrefusal : nb.refusal? call with
  | some r =>
    rw [apply_of_refusal hrefusal] at hc
    exact Or.inl hc
  | none =>
    rcases h.of_mem_apply hrefusal hc with ⟨hc, _⟩ | ⟨hid, hreq⟩
    · exact Or.inl hc
    · split at hreq
      · exact Or.inr ⟨hid, hreq⟩
      · exact absurd hreq hpos

/-! ## Numbers -/

theorem nextId_le_push (nb : Notebook κ) (id : CellId) (content : Content κ) :
    nb.nextId.number ≤ (nb.push id content).nextId.number := by
  rw [push]
  split
  · exact le_rfl
  · rw [nextId_append]
    exact Nat.le_max_left _ _

theorem nextId_le_apply (nb : Notebook κ) (call : Call κ) :
    nb.nextId.number ≤ (nb.apply call).nextId.number := by
  cases call with
  | addCode source => exact nextId_le_push nb _ _
  | addText body => exact nextId_le_push nb _ _
  | insert id content =>
    rw [apply, Notebook.insert]
    split
    · exact le_rfl
    · exact nextId_le_push nb id content
  | updateCode id source => exact le_rfl
  | requestRun id => exact le_rfl
  | remove id => exact le_rfl

theorem nextId_le_replay (nb : Notebook κ) (calls : List (Call κ)) :
    nb.nextId.number ≤ (nb.replay calls).nextId.number := by
  induction calls generalizing nb with
  | nil => exact le_rfl
  | cons call rest ih => exact le_trans (nextId_le_apply nb call) (ih (nb.apply call))

theorem Valid.nextId_replay_notMem (h : nb.Valid) (calls : List (Call κ)) :
    (nb.replay calls).nextId ∉ nb.ids := by
  intro hid
  obtain ⟨c, hc, hcid⟩ := List.mem_map.mp hid
  have hlt := Nat.lt_of_lt_of_le (h.number_lt c hc) (nextId_le_replay nb calls)
  exact Nat.lt_irrefl _ (hcid ▸ hlt)

/-! ## Requests -/

/-- A tick at which a cell of the one notebook and a cell of the other were asked for belongs to one
cell. -/
def RequestsApart (past nb : Notebook κ) : Prop :=
  ∀ c ∈ past.cells, ∀ d ∈ nb.cells, c.requested = d.requested → c.requested ≠ .earliest → c.id = d.id

theorem RequestsApart.apply_right (h : past.RequestsApart nb) (hpast : past.Valid) (hnb : nb.Valid)
    (hle : past.clock.now ≤ nb.clock.now) (call : Call κ) :
    past.RequestsApart (nb.apply call) := by
  intro c hc d hd heq hpos
  rcases hnb.of_mem_apply_of_requested hd (heq ▸ hpos) with hd | ⟨_, hreq⟩
  · exact h c hc d hd heq hpos
  · have hlt := Clock.lt_now_advance_of_le (le_trans (hpast.requested_le c hc) hle)
    exact absurd (heq.trans hreq) (ne_of_lt hlt)

theorem RequestsApart.apply (h : nb.RequestsApart nb) (hnb : nb.Valid) (call : Call κ) :
    (nb.apply call).RequestsApart (nb.apply call) := by
  intro c hc d hd heq hpos
  rcases hnb.of_mem_apply_of_requested hc hpos with hc | ⟨hcid, hcreq⟩
  · exact h.apply_right hnb hnb le_rfl call c hc d hd heq hpos
  · rcases hnb.of_mem_apply_of_requested hd (heq ▸ hpos) with hd | ⟨hdid, _⟩
    · have hlt := Clock.lt_now_advance_of_le (hnb.requested_le d hd)
      exact absurd (heq.symm.trans hcreq) (ne_of_lt hlt)
    · rw [hcid, hdid]

theorem requestsApart_replay (later : List (Call κ)) (hpast : past.Valid)
    (h : past.RequestsApart past) : past.RequestsApart (past.replay later) := by
  induction later using List.reverseRecOn with
  | nil => exact h
  | append_singleton later call ih =>
    rw [replay_append]
    exact ih.apply_right hpast (hpast.replay later)
      (Clock.now_le_now_iff.mpr (continues_replay past later).ticks_le) call

theorem requestsApart_of_calls (calls : List (Call κ)) :
    (empty.replay calls).RequestsApart (empty.replay calls) := by
  induction calls using List.reverseRecOn with
  | nil => exact fun c hc => absurd hc List.not_mem_nil
  | append_singleton calls call ih =>
    rw [replay_append]
    exact ih.apply (valid_empty.replay calls) call

/-! ## The cell that was asked for last -/

/-- After the calls, the cell of the last call that asked for a run and was not refused, as long as it
stands. A cell that is put in the place of a removed one, under its number, is another cell. -/
inductive AskedLast : List (Call κ) → CellId → Prop
  | asked {calls : List (Call κ)} {call : Call κ} :
    (empty.replay calls).refusal? call = none → call.asksRun = true →
    AskedLast (calls ++ [call]) ((empty.replay calls).subject call)
  | stands {calls : List (Call κ)} {call : Call κ} {id : CellId} :
    AskedLast calls id →
    (call.asksRun = true → (empty.replay calls).refusal? call ≠ none) →
    id ∈ (empty.replay (calls ++ [call])).ids →
    AskedLast (calls ++ [call]) id

/-- The cell of the given number is requested, and later than every other. -/
def IsNewest (nb : Notebook κ) (id : CellId) : Prop :=
  ∃ c ∈ nb.cells, c.id = id ∧ .earliest < c.requested ∧
    ∀ d ∈ nb.cells, d.id ≠ id → d.requested < c.requested

theorem subject_mem_ids_apply (hrefusal : nb.refusal? call = none) (hasks : call.asksRun = true) :
    nb.subject call ∈ (nb.apply call).ids := by
  cases call with
  | addCode source => simp [apply, add, subject, ids_push hrefusal]
  | addText body => cases hasks
  | insert id content =>
    obtain ⟨hid, hroom⟩ := insertRefusal?_eq_none_iff.mp hrefusal
    simp [apply, subject, insert_of_notMem hid, ids_push hroom]
  | updateCode id source =>
    rw [apply, updateCode, ids_request]
    exact mem_of_missing? hrefusal
  | requestRun id =>
    rw [apply, requestRun, ids_request]
    exact mem_of_missing? hrefusal
  | remove id => cases hasks

theorem mem_cells_push (hc : c ∈ nb.cells) (id : CellId) (content : Content κ) :
    c ∈ (nb.push id content).cells := by
  rw [push]
  split
  · exact hc
  · rw [cells_append]
    exact List.mem_append_left _ hc

theorem mem_cells_apply_of_not_asksRun (hasks : call.asksRun = false) (hc : c ∈ nb.cells)
    (hid : c.id ∈ (nb.apply call).ids) : c ∈ (nb.apply call).cells := by
  cases call with
  | addCode source => cases hasks
  | addText body => exact mem_cells_push hc _ _
  | insert id content =>
    rw [apply, Notebook.insert]
    split
    · exact hc
    · exact mem_cells_push hc id content
  | updateCode id source => cases hasks
  | requestRun id => cases hasks
  | remove id =>
    rw [apply, ids_remove] at hid
    exact List.mem_filter.mpr ⟨hc, (List.mem_filter.mp hid).2⟩

theorem Valid.isNewest_subject (h : nb.Valid) (hrefusal : nb.refusal? call = none)
    (hasks : call.asksRun = true) : (nb.apply call).IsNewest (nb.subject call) := by
  obtain ⟨c, hc, hid⟩ := List.mem_map.mp (subject_mem_ids_apply hrefusal hasks)
  have hreq : c.requested = nb.clock.advance.now := by
    rcases h.of_mem_apply hrefusal hc with ⟨_, hne⟩ | ⟨_, hreq⟩
    · exact absurd hid hne
    · rw [hreq, if_pos hasks]
  refine ⟨c, hc, hid, hreq ▸ Clock.earliest_lt_now_advance _, fun d hd hne => ?_⟩
  rcases h.of_mem_apply hrefusal hd with ⟨hd, _⟩ | ⟨hdid, _⟩
  · rw [hreq]
    exact Clock.lt_now_advance_of_le (h.requested_le d hd)
  · exact absurd hdid hne

theorem IsNewest.apply (hnew : nb.IsNewest id) (h : nb.Valid)
    (hnone : call.asksRun = true → nb.refusal? call ≠ none) (hid : id ∈ (nb.apply call).ids) :
    (nb.apply call).IsNewest id := by
  cases hrefusal : nb.refusal? call with
  | some r =>
    rw [apply_of_refusal hrefusal]
    exact hnew
  | none =>
    have hasks : call.asksRun = false := Bool.not_eq_true _ ▸ fun hasks => hnone hasks hrefusal
    obtain ⟨c, hc, rfl, hpos, hlt⟩ := hnew
    refine ⟨c, mem_cells_apply_of_not_asksRun hasks hc hid, rfl, hpos, fun d hd hne => ?_⟩
    -- whoever else is there now was there before, or is text that nobody has asked for
    rcases h.of_mem_apply hrefusal hd with ⟨hd, _⟩ | ⟨_, hreq⟩
    · exact hlt d hd hne
    · rw [hreq, hasks]
      exact hpos

theorem AskedLast.isNewest {calls : List (Call κ)} (h : AskedLast calls id) :
    (empty.replay calls).IsNewest id := by
  induction h with
  | @asked calls call hrefusal hasks =>
    rw [replay_append]
    exact (valid_empty.replay calls).isNewest_subject hrefusal hasks
  | @stands calls call id _ hnone hid ih =>
    rw [replay_append] at hid ⊢
    exact ih.apply (valid_empty.replay calls) hnone hid

/-- Whatever calls are made on a notebook, its cells have different numbers, and the number of an added
cell has never been the number of another; only under the last number of all is no cell added. Code is always asked for; no two cells, of now or of
different moments, are asked for at the same tick, none after the last tick of the clock, and the cell
that was asked for last is the newest. A refused call changes nothing, but for a tick taken to ask for a
cell that is missing. -/
theorem never_used_twice (calls : List (Call κ)) :
    let nb : Notebook κ := empty.replay calls
    nb.ids.Nodup ∧
    (∀ content, nb.nextId.number + 1 ≠ CellId.bound →
      (nb.add content).ids = nb.ids ++ [nb.nextId]) ∧
    (∀ before, before <+: calls → nb.nextId ∉ (empty.replay before).ids ∧
      (empty.replay before).RequestsApart nb) ∧
    (∀ c ∈ nb.codeCells, c.requested ≠ .earliest) ∧
    (∀ c ∈ nb.cells, ∀ d ∈ nb.cells, c.requested = d.requested → c.requested ≠ .earliest → c = d) ∧
    (∀ c ∈ nb.cells, c.requested ≤ nb.clock.now) ∧
    (∀ id, AskedLast calls id → nb.IsNewest id) ∧
    ∀ call r, nb.refusal? call = some r →
      nb.apply call =
        { nb with clock := if call.asksAgain then nb.clock.advance else nb.clock } := by
  intro nb
  have hV : nb.Valid := valid_empty.replay calls
  refine ⟨hV.nodup, fun content hroom => ?_, ?_, ?_, ?_, hV.requested_le, fun _ h => h.isNewest,
    fun _ _ h => apply_of_refusal h⟩
  · have hlt : nb.nextId.number + 1 < CellId.bound := Nat.lt_of_le_of_ne hV.nextId_lt hroom
    exact ids_push (overflow?_eq_none_iff.mpr ⟨_, CellId.next?_eq_some_iff.mpr ⟨hlt, rfl⟩⟩) nb content
  · rintro before ⟨later, rfl⟩
    have hpast := valid_empty.replay (κ := κ) before
    simp only [nb, replay_append]
    exact ⟨hpast.nextId_replay_notMem later,
      requestsApart_replay later hpast (requestsApart_of_calls before)⟩
  · exact fun c hc => ne_of_gt (hV.requested_pos c hc)
  · intro c hc d hd heq hpos
    exact List.inj_on_of_nodup_map hV.nodup hc hd
      (requestsApart_of_calls calls c hc d hd heq hpos)

/-- Text that was asked for keeps its request, a missing cell takes a tick, and text comes back under the
number of removed code. -/
theorem never_used_twice_number_put_back :
    let before : List (Call Unit) := [.addCode (.error "a"), .addText "notes", .requestRun ⟨1⟩,
      .updateCode ⟨7⟩ (.error "b")]
    let calls := before ++ [.addCode (.error "c")] ++ [.remove ⟨0⟩] ++ [.insert ⟨0⟩ (.text "back")]
    let nb : Notebook Unit := empty.replay calls
    nb.ids = [⟨1⟩, ⟨2⟩, ⟨0⟩] ∧ nb.cells.map Cell.requested = [.tick 2, .tick 4, .earliest] ∧
      AskedLast calls ⟨2⟩ ∧ nb.IsNewest ⟨2⟩ ∧ nb.nextId ∉ (empty.replay before).ids ∧
      nb.refusal? (.remove ⟨7⟩) = some (.cellNotFound ⟨7⟩) ∧ nb.apply (.remove ⟨7⟩) = nb := by
  intro before calls nb
  have hasked : AskedLast calls ⟨2⟩ :=
    .stands (.stands (.asked rfl rfl) (fun h => by cases h) (by decide)) (fun h => by cases h)
      (by decide)
  have hbefore : before <+: calls :=
    ((List.prefix_append _ _).trans (List.prefix_append _ _)).trans (List.prefix_append _ _)
  have hrefusal : nb.refusal? (.remove ⟨7⟩) = some (.cellNotFound ⟨7⟩) := by decide
  obtain ⟨_, _, hpast, _, _, _, hnewest, hrefused⟩ := never_used_twice calls
  exact ⟨by decide, by decide, hasked, hnewest _ hasked, (hpast before hbefore).1, hrefusal,
    hrefused _ _ hrefusal⟩

end Notebook

end Recalc
