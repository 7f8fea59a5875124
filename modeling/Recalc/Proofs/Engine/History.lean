import Recalc.Engine.History
import Recalc.Proofs.Engine.Tick

/-!
# What a history leaves behind

Every imprint of a reachable world goes back to one tick, at which the cell was last served; since then
it has not changed (`exists_last_run`). A cell whose last run is no later than some earlier tick, and
whose request was answered then, has not been touched since: it stood in the notebook of that tick as
it stands now, with the imprint that the tick left (`mem_unchangedIds`).

Hence a cell that is not stale is quiet: what its last run consulted are its inputs of today
(`quiet_of_not_stale`).
-/

namespace Recalc

open Relation
open scoped Time

namespace World

variable {κ ν : Type} {runner : Runner κ ν} {settings : Settings} {w w' : World κ ν} {id : CellId}

/-- What the next tick reports. -/
def report (runner : Runner κ ν) (w : World κ ν) : Tick := (w.engine.tick runner w.notebook).1

/-- The engine has run only at ticks that its clock has given out, for requests of the notebook. -/
structure Consistent (w : World κ ν) : Prop where
  valid : w.notebook.Valid
  computed_le : ∀ id, (w.engine.imprint id).computed ≤ w.engine.now
  answered_le : ∀ id, (w.engine.imprint id).answered ≤ w.notebook.clock.now
  exported_eq : ∀ id, (w.engine.imprint id).exported = (w.engine.imprint id).result.exported
  blank_or_ran : ∀ id, w.engine.imprint id = .blank ∨
    .earliest < (w.engine.imprint id).computed

theorem consistent_start (settings : Settings) : (start settings : World κ ν).Consistent where
  valid := Notebook.valid_empty
  computed_le _ := Time.earliest_le _
  answered_le _ := Time.earliest_le _
  exported_eq _ := rfl
  blank_or_ran _ := Or.inl rfl

theorem imprint_tick_cases (runner : Runner κ ν) (hV : w.notebook.Valid) (id : CellId) :
    (w.engine.Serves w.notebook id ∧ ∃ x ∈ (Plan.draft w.notebook).entries, x.id = id ∧ ∃ result,
      (w.move runner .tick).engine.imprint id =
        .completed x.requested w.engine.clock.advance.now x.node.inputIds result) ∨
    (w.move runner .tick).engine.imprint id = .blank ∨
    (w.move runner .tick).engine.imprint id = w.engine.imprint id := by
  by_cases hserves : w.engine.Serves w.notebook id
  · exact Or.inl ⟨hserves, Engine.served_spec runner hV hserves⟩
  · by_cases hid : id ∈ w.notebook.codeIds
    · exact Or.inr (Or.inr (Engine.imprint_tick_of_not_serves hV hid hserves))
    · exact Or.inr (Or.inl (Engine.imprint_tick_of_not_mem hV hid))

theorem now_tick (runner : Runner κ ν) (hV : w.notebook.Valid) :
    (w.move runner .tick).engine.now = w.engine.clock.advance.now :=
  congrArg Clock.now (Engine.clock_tick hV)

theorem requested_le_of_mem_entries {nb : Notebook κ} (hV : nb.Valid) {x : Entry κ}
    (hx : x ∈ (Plan.draft nb).entries) : x.requested ≤ nb.clock.now := by
  obtain ⟨c, hc, source, _, rfl⟩ := (Plan.mem_entries_iff hV).mp hx
  rw [Plan.requested_entryAt]
  exact hV.requested_le c (Notebook.mem_codeCells_iff.mp hc).1

theorem Consistent.tick (runner : Runner κ ν) (h : w.Consistent) :
    (w.move runner .tick).Consistent := by
  have hnow := now_tick runner h.valid
  have hlt : w.engine.now < w.engine.clock.advance.now := w.engine.clock.now_lt_now_advance
  refine ⟨h.valid, fun id => ?_, fun id => ?_, fun id => ?_, fun id => ?_⟩ <;>
    rcases imprint_tick_cases runner h.valid id with
      ⟨_, x, hx, _, result, himprint⟩ | himprint | himprint <;> rw [himprint]
  · exact le_of_eq hnow.symm
  · exact Time.earliest_le _
  · exact hnow ▸ le_trans (h.computed_le id) (le_of_lt hlt)
  · exact requested_le_of_mem_entries h.valid hx
  · exact Time.earliest_le _
  · exact h.answered_le id
  · rfl
  · rfl
  · exact h.exported_eq id
  · exact Or.inr (Clock.earliest_lt_now_advance _)
  · exact Or.inl rfl
  · exact h.blank_or_ran id

theorem Consistent.call (runner : Runner κ ν) (h : w.Consistent) (call : Call κ) :
    (w.move runner (.call call)).Consistent where
  valid := h.valid.apply call
  computed_le := h.computed_le
  answered_le id := le_trans (h.answered_le id)
    (Clock.now_le_now_iff.mpr (Notebook.continues_apply w.notebook call).ticks_le)
  exported_eq := h.exported_eq
  blank_or_ran := h.blank_or_ran

theorem Consistent.move (runner : Runner κ ν) (h : w.Consistent) (m : Move κ) :
    (w.move runner m).Consistent := by
  cases m with
  | call call => exact h.call runner call
  | tick => exact h.tick runner
  | cancelAll => exact ⟨h.valid, h.computed_le, h.answered_le, h.exported_eq, h.blank_or_ran⟩

theorem Reachable.consistent (h : Reachable runner settings w) : w.Consistent := by
  induction h with
  | start => exact consistent_start settings
  | move m _ ih => exact ih.move runner m

def Later (runner : Runner κ ν) : World κ ν → World κ ν → Prop :=
  ReflTransGen fun w w' => ∃ m, w' = w.move runner m

theorem Reachable.later (h : Reachable runner settings w) (hl : Later runner w w') :
    Reachable runner settings w' := by
  induction hl with
  | refl => exact h
  | tail _ hm ih =>
    obtain ⟨m, rfl⟩ := hm
    exact .move m ih

theorem Later.consistent (hl : Later runner w w') (h : w.Consistent) : w'.Consistent := by
  induction hl with
  | refl => exact h
  | tail _ hm ih =>
    obtain ⟨m, rfl⟩ := hm
    exact ih.move runner m

theorem Later.continues (hl : Later runner w w') : w.notebook.Continues w'.notebook := by
  induction hl with
  | refl => exact .refl _
  | tail _ hm ih =>
    obtain ⟨m, rfl⟩ := hm
    cases m with
    | call call => exact ih.trans (Notebook.continues_apply _ call)
    | tick => exact ih
    | cancelAll => exact ih

theorem Later.filter_unchanged {w₀ : World κ ν} (hl : Later runner (w₀.move runner .tick) w)
    (h : w₀.Consistent) :
    (w.notebook.codeCells.filter fun c =>
        decide (c.id ∈ Notebook.unchangedIds w₀.notebook w.notebook)) =
      w₀.notebook.codeCells.filter fun c =>
        decide (c.id ∈ Notebook.unchangedIds w₀.notebook w.notebook) :=
  Notebook.Continues.filter_unchanged hl.continues h.valid (hl.consistent (h.tick runner)).valid

theorem Later.now_le (hl : Later runner w w') (h : w.Consistent) :
    w.engine.now ≤ w'.engine.now := by
  induction hl with
  | refl => exact le_rfl
  | tail hl' hm ih =>
    obtain ⟨m, rfl⟩ := hm
    cases m with
    | call call => exact ih
    | tick =>
      rw [now_tick runner (Later.consistent hl' h).valid]
      exact le_trans ih (le_of_lt (Clock.now_lt_now_advance _))
    | cancelAll => exact ih

/-- What has not run since an earlier moment has the imprint that it had then, unless it was
deleted. -/
theorem Later.imprint_eq (hl : Later runner w w') (h : w.Consistent)
    (hle : (w'.engine.imprint id).computed ≤ w.engine.now) :
    w'.engine.imprint id = .blank ∨ w'.engine.imprint id = w.engine.imprint id := by
  induction hl with
  | refl => exact Or.inr rfl
  | @tail b c hl' hm ih =>
    obtain ⟨m, rfl⟩ := hm
    cases m with
    | call call => exact ih hle
    | cancelAll => exact ih hle
    | tick =>
      rcases imprint_tick_cases runner (Later.consistent hl' h).valid id with
        ⟨_, _, _, _, _, himprint⟩ | himprint | himprint
      · rw [himprint] at hle
        have hlt := lt_of_le_of_lt (Later.now_le hl' h) b.engine.clock.now_lt_now_advance
        exact absurd hle (not_le_of_gt hlt)
      · exact Or.inl himprint
      · rw [himprint] at hle ⊢
        exact ih hle

/-- The world before the tick that served a cell last: the cell has kept the imprint of that tick. -/
structure LastRun (runner : Runner κ ν) (settings : Settings) (w₀ w : World κ ν) (id : CellId) :
    Prop where
  reachable : Reachable runner settings w₀
  later : Later runner (w₀.move runner .tick) w
  serves : w₀.engine.Serves w₀.notebook id
  imprint_eq : w.engine.imprint id = (w₀.move runner .tick).engine.imprint id

theorem exists_last_run (h : Reachable runner settings w) (hne : w.engine.imprint id ≠ .blank) :
    ∃ w₀, LastRun runner settings w₀ w id := by
  induction h with
  | start => exact absurd rfl hne
  | @move w m hw ih =>
    have hkeep : (w.move runner m).engine.imprint id = w.engine.imprint id →
        ∃ w₀, LastRun runner settings w₀ (w.move runner m) id := by
      intro heq
      obtain ⟨w₀, hlast⟩ := ih (heq ▸ hne)
      exact ⟨w₀, hlast.reachable, hlast.later.tail ⟨m, rfl⟩, hlast.serves,
        heq.trans hlast.imprint_eq⟩
    cases m with
    | call call => exact hkeep rfl
    | cancelAll => exact hkeep rfl
    | tick =>
      rcases imprint_tick_cases runner hw.consistent.valid id with ⟨hserves, _⟩ | hblank | hsame
      · exact ⟨w, hw, .refl, hserves, rfl⟩
      · exact absurd hblank hne
      · exact hkeep hsame

theorem LastRun.computed_eq {w₀ : World κ ν} (h : LastRun runner settings w₀ w id) :
    (w.engine.imprint id).computed = (w₀.move runner .tick).engine.now := by
  have hV := h.reachable.consistent.valid
  obtain ⟨x, _, _, result, hspec⟩ := Engine.served_spec runner hV h.serves
  have himprint : w.engine.imprint id = _ := h.imprint_eq.trans hspec
  rw [himprint, now_tick runner hV]
  rfl

theorem LastRun.consulted_eq {w₀ : World κ ν} (h : LastRun runner settings w₀ w id) :
    (w.engine.imprint id).consulted = (Plan.graphOf w₀.notebook).sources id := by
  have hV := h.reachable.consistent.valid
  obtain ⟨x, hx, rfl, result, hspec⟩ := Engine.served_spec runner hV h.serves
  have himprint : w.engine.imprint x.id = _ := h.imprint_eq.trans hspec
  rw [himprint]
  exact (Plan.sound_draft hV).inputIds_eq hx

theorem ne_blank_of_requested (hV : w.notebook.Valid) {c : Cell κ}
    (hc : c ∈ w.notebook.codeCells) (hle : c.requested ≤ (w.engine.imprint c.id).answered) :
    w.engine.imprint c.id ≠ .blank := by
  intro hblank
  rw [hblank] at hle
  exact absurd (hV.requested_pos c hc) (not_lt_of_ge hle)

theorem mem_unchangedIds {w₀ : World κ ν} (h : w₀.Consistent)
    (hl : Later runner (w₀.move runner .tick) w) {c : Cell κ} (hc : c ∈ w.notebook.codeCells)
    (hanswered : c.requested ≤ (w.engine.imprint c.id).answered)
    (hcomputed : (w.engine.imprint c.id).computed ≤ (w₀.move runner .tick).engine.now) :
    c.id ∈ Notebook.unchangedIds w₀.notebook w.notebook ∧
      w.engine.imprint c.id = (w₀.move runner .tick).engine.imprint c.id := by
  have htick : (w₀.move runner .tick).Consistent := h.tick runner
  have hsame : w.engine.imprint c.id = (w₀.move runner .tick).engine.imprint c.id :=
    (hl.imprint_eq htick hcomputed).resolve_left
      (ne_blank_of_requested (hl.consistent htick).valid hc hanswered)
  refine ⟨Notebook.mem_unchangedIds_iff.mpr ⟨c, hc, ?_, rfl⟩, hsame⟩
  rw [hsame] at hanswered
  exact le_trans hanswered (htick.answered_le c.id)

/-! ## Two cells, one reading from the other -/

/-- The first cell exports its code as `a`, the second exports `b` and adds `a` to its code. -/
def pairAnswer (_ : CellId) (code : Nat) (inputs : Bindings Nat) :
    Except String (Bindings Nat) :=
  .ok (Table.ofList [("a", code), ("b", code + (inputs.get? "a").getD 0)])

def pairSource (imports exports : List Name) (code : Nat) : Compilation Nat :=
  .ok ⟨imports.map Link.same, exports.map Link.same, code, none, false⟩

def pairMoves (code : Nat) : List (Move Nat) :=
  [.call (.addCode (pairSource [] ["a"] code)), .call (.addCode (pairSource ["a"] ["b"] 10)),
    .tick, .tick]

end World

end Recalc
