import Recalc.Literal
import Recalc.Proofs.Engine.History

/-!
# Who cancels a run

The holdings of an engine are its tokens and, for every cell, the token in its record. A tick changes
them in three ways only: a token is cancelled, a new one is granted to a cell, a cell lets go of its
token. No two cells hold one token, and the next token has been neither held nor cancelled
(`Holdings.Apart`), so cancelling for one cell leaves the runs of the others alone.

Hence a run is handed over under a token that is new and not cancelled. It is cancelled when its
cell runs again on the same record, when the record is dropped, or when all runs are cancelled, and by
nothing else (`token_lifetime`).
-/

namespace Recalc

variable {κ ν : Type}

/-- The tokens and the cells that hold them. -/
structure Holdings where
  held? : CellId → Option Token
  tokens : Tokens

namespace Holdings

variable {h h' h'' : Holdings} {id j : CellId} {t : Token}

/-- No token is held twice, and the next one is neither held nor cancelled. -/
structure Apart (h : Holdings) : Prop where
  held_lt : ∀ id t, h.held? id = some t → t.index < h.tokens.issued
  held_inj : ∀ id id' t, h.held? id = some t → h.held? id' = some t → id = id'
  cancelled_lt : ∀ t, h.tokens.isCancelled t = true → t.index < h.tokens.issued

def cancel (h : Holdings) (id : CellId) : Holdings :=
  { h with tokens := (h.held? id).elim h.tokens h.tokens.cancel }

def grant (h : Holdings) (id : CellId) : Holdings :=
  ⟨Function.update h.held? id (some h.tokens.fresh), h.tokens.issue⟩

def release (h : Holdings) (id : CellId) : Holdings :=
  { h with held? := Function.update h.held? id none }

theorem held?_grant_self (h : Holdings) (id : CellId) :
    (h.grant id).held? id = some h.tokens.fresh := Function.update_self _ _ _

theorem held?_grant_of_ne (hj : j ≠ id) : (h.grant id).held? j = h.held? j :=
  Function.update_of_ne hj _ _

theorem held?_release_self (h : Holdings) (id : CellId) : (h.release id).held? id = none :=
  Function.update_self _ _ _

theorem held?_release_of_ne (hj : j ≠ id) : (h.release id).held? j = h.held? j :=
  Function.update_of_ne hj _ _

theorem issued_cancel (h : Holdings) (id : CellId) :
    (h.cancel id).tokens.issued = h.tokens.issued := by
  rw [cancel]
  cases h.held? id <;> rfl

theorem isCancelled_cancel_iff :
    (h.cancel id).tokens.isCancelled t = true ↔
      h.held? id = some t ∨ h.tokens.isCancelled t = true := by
  rw [cancel]
  cases h.held? id with
  | none => simp
  | some s =>
    rw [Option.elim_some, Tokens.isCancelled_cancel_iff, Option.some.injEq]
    exact or_congr_left eq_comm

theorem isCancelled_grant (h : Holdings) (id : CellId) (t : Token) :
    (h.grant id).tokens.isCancelled t = h.tokens.isCancelled t := rfl

theorem fresh_cancel (h : Holdings) (id : CellId) :
    (h.cancel id).tokens.fresh = h.tokens.fresh := congrArg Token.mk (issued_cancel h id)

theorem Apart.isCancelled_fresh (ha : h.Apart) : h.tokens.isCancelled h.tokens.fresh = false :=
  Bool.eq_false_iff.mpr fun hc => Nat.lt_irrefl _ (ha.cancelled_lt _ hc)

/-- What every change of holdings keeps up. -/
structure Onward (h h' : Holdings) : Prop where
  apart : h.Apart → h'.Apart
  cancelled : ∀ t, h.tokens.isCancelled t = true → h'.tokens.isCancelled t = true
  issued_le : h.tokens.issued ≤ h'.tokens.issued

theorem Onward.refl (h : Holdings) : Onward h h := ⟨fun ha => ha, fun _ ht => ht, Nat.le_refl _⟩

theorem Onward.trans (ho : Onward h h') (ho' : Onward h' h'') : Onward h h'' :=
  ⟨fun ha => ho'.apart (ho.apart ha), fun t ht => ho'.cancelled t (ho.cancelled t ht),
    Nat.le_trans ho.issued_le ho'.issued_le⟩

theorem onward_cancel (h : Holdings) (id : CellId) : Onward h (h.cancel id) := by
  refine ⟨fun ha => ⟨?_, ha.held_inj, ?_⟩, fun t ht => isCancelled_cancel_iff.mpr (Or.inr ht),
    Nat.le_of_eq (issued_cancel h id).symm⟩
  · rw [issued_cancel]
    exact ha.held_lt
  · intro t ht
    rw [issued_cancel]
    exact (isCancelled_cancel_iff.mp ht).elim (ha.held_lt id t) (ha.cancelled_lt t)

theorem onward_grant (h : Holdings) (id : CellId) : Onward h (h.grant id) := by
  refine ⟨fun ha => ?_, fun _ ht => ht, Nat.le_succ _⟩
  -- the new token has an index that no token in use has
  have hcases : ∀ j s, (h.grant id).held? j = some s →
      j = id ∧ s = h.tokens.fresh ∨ j ≠ id ∧ h.held? j = some s := by
    intro j s hs
    by_cases hj : j = id
    · subst hj
      rw [held?_grant_self, Option.some.injEq] at hs
      exact Or.inl ⟨rfl, hs.symm⟩
    · rw [held?_grant_of_ne hj] at hs
      exact Or.inr ⟨hj, hs⟩
  have hfresh : ∀ j, h.held? j ≠ some h.tokens.fresh := fun j hj =>
    Nat.lt_irrefl _ (ha.held_lt j _ hj)
  refine ⟨fun j s hs => ?_, fun j j' s hs hs' => ?_, fun s hs => ?_⟩
  · rcases hcases j s hs with ⟨_, rfl⟩ | ⟨_, hold⟩
    · exact Nat.lt_succ_self _
    · exact Nat.lt_succ_of_lt (ha.held_lt j s hold)
  · rcases hcases j s hs with ⟨rfl, rfl⟩ | ⟨_, hold⟩
    · rcases hcases j' _ hs' with ⟨rfl, _⟩ | ⟨_, hold'⟩
      · rfl
      · exact absurd hold' (hfresh j')
    · rcases hcases j' s hs' with ⟨_, rfl⟩ | ⟨_, hold'⟩
      · exact absurd hold (hfresh j)
      · exact ha.held_inj j j' s hold hold'
  · exact Nat.lt_succ_of_lt (ha.cancelled_lt s hs)

theorem onward_release (h : Holdings) (id : CellId) : Onward h (h.release id) := by
  refine ⟨fun ha => ?_, fun _ ht => ht, Nat.le_refl _⟩
  have hold : ∀ j s, (h.release id).held? j = some s → h.held? j = some s := by
    intro j s hs
    by_cases hj : j = id
    · subst hj
      rw [held?_release_self] at hs
      cases hs
    · rwa [held?_release_of_ne hj] at hs
  exact ⟨fun j s hs => ha.held_lt j s (hold j s hs),
    fun j j' s hs hs' => ha.held_inj j j' s (hold j s hs) (hold j' s hs'), ha.cancelled_lt⟩

/-- A change that leaves the token of a cell with the cell, and does not cancel it. -/
def Spares (id : CellId) (h h' : Holdings) : Prop :=
  h.Apart → ∀ t, h.held? id = some t →
    h'.held? id = some t ∧ h'.tokens.isCancelled t = h.tokens.isCancelled t

theorem Spares.refl (id : CellId) (h : Holdings) : Spares id h h := fun _ _ ht => ⟨ht, rfl⟩

theorem Spares.trans (hs : Spares id h h') (ho : Onward h h') (hs' : Spares id h' h'') :
    Spares id h h'' := by
  intro ha t ht
  obtain ⟨ht', hc⟩ := hs ha t ht
  obtain ⟨ht'', hc'⟩ := hs' (ho.apart ha) t ht'
  exact ⟨ht'', hc'.trans hc⟩

theorem spares_cancel (hj : j ≠ id) : Spares id h (h.cancel j) := by
  refine fun ha t ht => ⟨ht, ?_⟩
  rw [Bool.eq_iff_iff, isCancelled_cancel_iff, or_iff_right_iff_imp]
  exact fun ht' => absurd (ha.held_inj j id t ht' ht) hj

theorem spares_grant (hj : j ≠ id) : Spares id h (h.grant j) := by
  exact fun _ t ht => ⟨(held?_grant_of_ne hj.symm).trans ht, rfl⟩

theorem spares_release (hj : j ≠ id) : Spares id h (h.release j) := by
  exact fun _ t ht => ⟨(held?_release_of_ne hj.symm).trans ht, rfl⟩

end Holdings

open Holdings

namespace Engine

variable {runner : Runner κ ν} {e : Engine κ ν} {nb : Notebook κ} {id j : CellId} {t : Token}

def holdings (e : Engine κ ν) : Holdings :=
  ⟨fun id => (e.records.get? id).map Record.token, e.tokens⟩

theorem held?_of_get? {r : Record ν} (hr : e.records.get? id = some r) :
    e.holdings.held? id = some r.token :=
  congrArg (Option.map Record.token) hr

theorem holdings_insert (e : Engine κ ν) (tokens : Tokens) (id : CellId) (r : Record ν) :
    { e with records := e.records.insert id r, tokens := tokens }.holdings =
      ⟨Function.update e.holdings.held? id (some r.token), tokens⟩ := by
  rw [holdings, Holdings.mk.injEq]
  refine ⟨funext fun j => ?_, rfl⟩
  by_cases hj : j = id
  · subst hj
    rw [Table.get?_insert_self, Function.update_self]
    rfl
  · rw [Table.get?_insert_of_ne _ hj, Function.update_of_ne hj]
    rfl

/-- Storing a record under the token that its cell holds changes no holdings. -/
theorem holdings_store {r r' : Record ν} (hr : e.records.get? id = some r)
    (htoken : r'.token = r.token) : (e.store id r').holdings = e.holdings := by
  have hinsert : (e.store id r').holdings = ⟨Function.update e.holdings.held? id (some r'.token), _⟩ :=
    holdings_insert e e.tokens id r'
  rw [hinsert, htoken, ← held?_of_get? hr, Function.update_eq_self]
  rfl

theorem holdings_enroll (e : Engine κ ν) (id : CellId) :
    (e.enroll id).holdings = if e.records.contains id then e.holdings else e.holdings.grant id := by
  rw [enroll]
  split
  · rfl
  · exact holdings_insert e _ id _

theorem holdings_discharge (e : Engine κ ν) (id : CellId) :
    (e.discharge id).holdings = (e.holdings.cancel id).release id := by
  rw [discharge, release, Holdings.cancel]
  split
  · next hnone =>
    have hheld : e.holdings.held? id = none := congrArg (Option.map Record.token) hnone
    rw [hheld, Option.elim_none, ← hheld, Function.update_eq_self]
  · next r hr =>
    rw [held?_of_get? hr, holdings, Holdings.mk.injEq]
    refine ⟨funext fun j => ?_, rfl⟩
    by_cases hj : j = id
    · subst hj
      rw [Function.update_self]
      exact congrArg _ (Table.get?_erase_self _ _)
    · rw [Function.update_of_ne hj]
      exact congrArg _ (Table.get?_erase_of_ne _ hj)

theorem holdings_setWaiting (e : Engine κ ν) (id : CellId) (waiting : Bool) :
    (e.setWaiting id waiting).holdings = e.holdings := by
  rw [setWaiting]
  split
  · rfl
  · next r hr =>
    split
    · rfl
    · exact holdings_store hr rfl

theorem holdings_fire (e : Engine κ ν) (f : Faulty) : (e.fire f).holdings = e.holdings := by
  rw [fire, complete]
  split
  · rfl
  · next r hr => exact holdings_store hr rfl

theorem holdings_beforeRun (e : Engine κ ν) (nb : Notebook κ) :
    (e.beforeRun nb).holdings = (e.kept nb).holdings := by
  rw [beforeRun, foldl_invariant holdings holdings_fire, marked, markWaiting,
    foldl_invariant holdings fun e id => holdings_setWaiting e id _]
  rfl

/-- A run cancels the run before it and is granted a token of its own. -/
theorem holdings_launch (runner : Runner κ ν) {r : Runnable κ} {record : Record ν}
    (hr : e.records.get? r.node.id = some record) :
    (e.launch runner r).holdings = (e.holdings.cancel r.node.id).grant r.node.id := by
  rw [launch_of_get? runner hr]
  refine (holdings_store get?_store_self ?_).trans ?_
  · rfl
  · refine (holdings_insert (e.requesting record r) _ r.node.id _).trans ?_
    rw [grant, Holdings.cancel, held?_of_get? hr]
    rfl

theorem isCancelled_launch (runner : Runner κ ν) {r : Runnable κ} {record : Record ν}
    (hr : e.records.get? r.node.id = some record)
    (ht : e.holdings.held? r.node.id = some t) :
    (e.launch runner r).holdings.tokens.isCancelled t = true := by
  rw [holdings_launch runner hr, isCancelled_grant]
  exact isCancelled_cancel_iff.mpr (Or.inl ht)

theorem held?_launch (runner : Runner κ ν) {r : Runnable κ} {record : Record ν}
    (hr : e.records.get? r.node.id = some record) :
    (e.launch runner r).holdings.held? r.node.id = some e.tokens.fresh := by
  rw [holdings_launch runner hr, held?_grant_self, fresh_cancel]
  rfl

theorem isCancelled_launch_fresh (runner : Runner κ ν) (ha : e.holdings.Apart) {r : Runnable κ}
    {record : Record ν} (hr : e.records.get? r.node.id = some record) :
    (e.launch runner r).holdings.tokens.isCancelled e.tokens.fresh = false := by
  have hfresh := ((onward_cancel e.holdings r.node.id).apart ha).isCancelled_fresh
  rw [fresh_cancel] at hfresh
  rw [holdings_launch runner hr, isCancelled_grant]
  exact hfresh

theorem cancelled_requestInPlaceOf (ha : e.holdings.Apart) {r : Runnable κ} {record : Record ν}
    (hr : e.records.get? r.node.id = some record) :
    (e.requestInPlaceOf record r).cancelled = false := by
  have hfresh := ((onward_cancel e.holdings r.node.id).apart ha).isCancelled_fresh
  rw [fresh_cancel, Holdings.cancel, held?_of_get? hr] at hfresh
  exact hfresh

theorem onward_foldl {β : Type} {op : Engine κ ν → β → Engine κ ν}
    (h : ∀ e b, Onward e.holdings (op e b).holdings) (e : Engine κ ν) (l : List β) :
    Onward e.holdings (l.foldl op e).holdings := by
  induction l generalizing e with
  | nil => exact .refl _
  | cons b rest ih => exact (h e b).trans (ih (op e b))

theorem spares_foldl {β : Type} {op : Engine κ ν → β → Engine κ ν}
    (ho : ∀ e b, Onward e.holdings (op e b).holdings) {l : List β}
    (h : ∀ e, ∀ b ∈ l, Spares id e.holdings (op e b).holdings) (e : Engine κ ν) :
    Spares id e.holdings (l.foldl op e).holdings := by
  induction l generalizing e with
  | nil => exact .refl _ _
  | cons b rest ih =>
    exact (h e b List.mem_cons_self).trans (ho e b)
      (ih (fun e b hb => h e b (List.mem_cons_of_mem _ hb)) (op e b))

theorem onward_enroll (e : Engine κ ν) (id : CellId) :
    Onward e.holdings (e.enroll id).holdings := by
  rw [holdings_enroll]
  split
  · exact .refl _
  · exact onward_grant _ _

theorem spares_enroll (e : Engine κ ν) (j : CellId) :
    Spares id e.holdings (e.enroll j).holdings := by
  rw [holdings_enroll]
  split
  · exact .refl _ _
  · next hnew =>
    by_cases hj : j = id
    · subst hj
      intro _ t ht
      obtain ⟨r, hr, _⟩ := Option.map_eq_some_iff.mp ht
      exact absurd (contains_of_get? hr) hnew
    · exact spares_grant hj

theorem onward_discharge (e : Engine κ ν) (id : CellId) :
    Onward e.holdings (e.discharge id).holdings := by
  rw [holdings_discharge]
  exact (onward_cancel _ _).trans (onward_release _ _)

theorem spares_discharge (hj : j ≠ id) : Spares id e.holdings (e.discharge j).holdings := by
  rw [holdings_discharge]
  exact (spares_cancel hj).trans (onward_cancel _ _) (spares_release hj)

theorem isCancelled_discharge (ht : e.holdings.held? id = some t) :
    (e.discharge id).holdings.tokens.isCancelled t = true := by
  rw [holdings_discharge]
  exact isCancelled_cancel_iff.mpr (Or.inl ht)

theorem onward_launch (runner : Runner κ ν) (e : Engine κ ν) (r : Runnable κ) :
    Onward e.holdings (e.launch runner r).holdings := by
  cases hr : e.records.get? r.node.id with
  | none =>
    rw [launch, hr]
    exact .refl _
  | some record =>
    rw [holdings_launch runner hr]
    exact (onward_cancel _ _).trans (onward_grant _ _)

theorem spares_launch (runner : Runner κ ν) (e : Engine κ ν) {r : Runnable κ}
    (hr : r.node.id ≠ id) : Spares id e.holdings (e.launch runner r).holdings := by
  cases hrecord : e.records.get? r.node.id with
  | none =>
    rw [launch, hrecord]
    exact .refl _ _
  | some record =>
    rw [holdings_launch runner hrecord]
    exact (spares_cancel hr).trans (onward_cancel _ _) (spares_grant hr)

/-! ## Cancelling all -/

theorem isCancelled_foldl_cancel_iff {rs : List (Record ν)} {ts : Tokens} :
    (rs.foldl (fun ts r => ts.cancel r.token) ts).isCancelled t = true ↔
      (∃ r ∈ rs, r.token = t) ∨ ts.isCancelled t = true := by
  induction rs generalizing ts with
  | nil => simp
  | cons r rest ih =>
    rw [List.foldl_cons, ih, Tokens.isCancelled_cancel_iff, ← or_assoc]
    simp only [List.mem_cons, exists_eq_or_imp, eq_comm (a := t)]
    exact or_congr_left or_comm

theorem issued_foldl_cancel (rs : List (Record ν)) (ts : Tokens) :
    (rs.foldl (fun ts r => ts.cancel r.token) ts).issued = ts.issued :=
  foldl_invariant Tokens.issued
    (fun (ts : Tokens) (r : Record ν) => (rfl : (ts.cancel r.token).issued = ts.issued)) ts rs

theorem exists_held?_of_mem_values {r : Record ν} (hr : r ∈ e.records.values) :
    ∃ id, e.holdings.held? id = some r.token := by
  obtain ⟨⟨id, r⟩, hmem, rfl⟩ := List.mem_map.mp hr
  exact ⟨id, held?_of_get? ((e.records.get?_eq_some_iff).mpr hmem)⟩

theorem onward_cancelAll (e : Engine κ ν) : Onward e.holdings e.cancelAll.holdings := by
  have hissued : e.cancelAll.holdings.tokens.issued = e.holdings.tokens.issued :=
    issued_foldl_cancel _ _
  refine ⟨fun ha => ⟨?_, ha.held_inj, fun t ht => ?_⟩,
    fun t ht => isCancelled_foldl_cancel_iff.mpr (Or.inr ht), Nat.le_of_eq hissued.symm⟩
  · rw [hissued]
    exact ha.held_lt
  · rw [hissued]
    rcases isCancelled_foldl_cancel_iff.mp ht with ⟨r, hr, rfl⟩ | ht
    · obtain ⟨id, hid⟩ := exists_held?_of_mem_values hr
      exact ha.held_lt id _ hid
    · exact ha.cancelled_lt t ht

theorem isCancelled_cancelAll (ht : e.holdings.held? id = some t) :
    e.cancelAll.holdings.tokens.isCancelled t = true := by
  obtain ⟨r, hr, rfl⟩ := Option.map_eq_some_iff.mp ht
  refine isCancelled_foldl_cancel_iff.mpr (Or.inl ⟨r, ?_, rfl⟩)
  exact List.mem_map.mpr ⟨(id, r), e.records.get?_eq_some_iff.mp hr, rfl⟩

/-! ## A tick -/

theorem removed_tick : (e.tick runner nb).1.removed = (e.enrollAll nb).orphans nb := rfl

theorem onward_enrollAll (e : Engine κ ν) (nb : Notebook κ) :
    Onward e.holdings (e.enrollAll nb).holdings :=
  onward_foldl onward_enroll e nb.codeIds

theorem spares_enrollAll (e : Engine κ ν) (nb : Notebook κ) (id : CellId) :
    Spares id e.holdings (e.enrollAll nb).holdings :=
  spares_foldl onward_enroll (fun e j _ => spares_enroll e j) e

theorem onward_beforeRun (e : Engine κ ν) (nb : Notebook κ) :
    Onward e.holdings (e.beforeRun nb).holdings := by
  rw [holdings_beforeRun]
  exact (onward_enrollAll e nb).trans (onward_foldl onward_discharge _ _)

theorem spares_beforeRun (runner : Runner κ ν) (hid : id ∉ (e.tick runner nb).1.removed) :
    Spares id e.holdings (e.beforeRun nb).holdings := by
  rw [holdings_beforeRun]
  refine (spares_enrollAll e nb id).trans (onward_enrollAll e nb) (spares_foldl onward_discharge ?_ _)
  rintro e j hj
  exact spares_discharge fun heq => hid (heq ▸ hj)

theorem isCancelled_foldl_discharge {ids : List CellId} (ha : e.holdings.Apart) (hid : id ∈ ids)
    (ht : e.holdings.held? id = some t) :
    (ids.foldl discharge e).holdings.tokens.isCancelled t = true := by
  induction ids generalizing e with
  | nil => cases hid
  | cons j rest ih =>
    by_cases hj : j = id
    · subst hj
      exact (onward_foldl onward_discharge _ rest).cancelled t (isCancelled_discharge ht)
    · have hrest : id ∈ rest := (List.mem_cons.mp hid).resolve_left fun heq => hj heq.symm
      exact ih ((onward_discharge e j).apart ha) hrest (spares_discharge hj ha t ht).1

theorem isCancelled_beforeRun (ha : e.holdings.Apart) (hid : id ∈ (e.tick runner nb).1.removed)
    (ht : e.holdings.held? id = some t) :
    (e.beforeRun nb).holdings.tokens.isCancelled t = true := by
  rw [holdings_beforeRun]
  exact isCancelled_foldl_discharge ((onward_enrollAll e nb).apart ha) hid
    (spares_enrollAll e nb id ha t ht).1

theorem onward_tick (runner : Runner κ ν) (e : Engine κ ν) (nb : Notebook κ) :
    Onward e.holdings (e.tick runner nb).2.holdings := by
  rw [snd_tick, launchChosen]
  split
  · exact onward_beforeRun e nb
  · exact (onward_beforeRun e nb).trans (onward_launch runner _ _)

theorem spares_tick (hV : nb.Valid) (hran : (e.tick runner nb).1.ran ≠ some id)
    (hid : id ∉ (e.tick runner nb).1.removed) :
    Spares id e.holdings (e.tick runner nb).2.holdings := by
  rw [ran_tick hV] at hran
  rw [snd_tick, launchChosen]
  split
  · exact spares_beforeRun runner hid
  · next r hr =>
    rw [hr, Option.map_some, ne_eq, Option.some.injEq] at hran
    exact (spares_beforeRun runner hid).trans (onward_beforeRun e nb) (spares_launch runner _ hran)

theorem not_mem_removed_of_mem_codeIds (hid : id ∈ nb.codeIds) :
    id ∉ (e.tick runner nb).1.removed := by
  rw [removed_tick]
  simp [orphans, Notebook.hasCode, hid]

theorem isCancelled_tick (hV : nb.Valid) (ha : e.holdings.Apart)
    (hid : (e.tick runner nb).1.ran = some id ∨ id ∈ (e.tick runner nb).1.removed)
    (ht : e.holdings.held? id = some t) :
    (e.tick runner nb).2.holdings.tokens.isCancelled t = true := by
  rcases hid with hran | hremoved
  · rw [ran_tick hV, Option.map_eq_some_iff] at hran
    obtain ⟨r, hr, rfl⟩ := hran
    have hcode := mem_codeIds_of_mem_entries hV (mem_entries_of_runnable hr)
    obtain ⟨record, hrecord⟩ := Option.isSome_iff_exists.mp (contains_beforeRun.mpr hcode)
    have hheld : (e.beforeRun nb).holdings.held? r.node.id = some t :=
      (spares_beforeRun runner (not_mem_removed_of_mem_codeIds hcode) ha t ht).1
    rw [snd_tick, launchChosen, hr]
    exact isCancelled_launch runner hrecord hheld
  · have hbefore := isCancelled_beforeRun ha hremoved ht
    rw [snd_tick, launchChosen]
    split
    · exact hbefore
    · exact (onward_launch runner _ _).cancelled t hbefore

/-- A tick hands a request to the runner. -/
structure Launches (runner : Runner κ ν) (nb : Notebook κ) (e : Engine κ ν) (q : Request κ ν) :
    Prop where
  ran : (e.tick runner nb).1.ran = some q.cell
  requests : (e.tick runner nb).2.requests = q :: e.requests
  uncancelled : q.cancelled = false
  issued_le : e.tokens.issued ≤ q.token.index
  held : (e.tick runner nb).2.holdings.held? q.cell = some q.token
  live : (e.tick runner nb).2.tokens.isCancelled q.token = false

theorem launches_or_not (runner : Runner κ ν) (hV : nb.Valid) (ha : e.holdings.Apart) :
    ((e.tick runner nb).1.ran = none ∧ (e.tick runner nb).2.requests = e.requests) ∨
      ∃ q, Launches runner nb e q := by
  have hran : (e.tick runner nb).1.ran = _ := ran_tick hV
  cases hr : (e.choice nb).runnable with
  | none =>
    rw [hr] at hran
    exact Or.inl ⟨hran, requests_tick_of_none hr⟩
  | some r =>
    have hcode : r.node.id ∈ nb.codeIds :=
      mem_codeIds_of_mem_entries hV (mem_entries_of_runnable hr)
    obtain ⟨record, hrecord⟩ := Option.isSome_iff_exists.mp
      (contains_beforeRun (e := e).mpr hcode)
    have htick : (e.tick runner nb).2 = (e.beforeRun nb).launch runner r := by
      rw [snd_tick, launchChosen, hr]
    have hbefore : (e.beforeRun nb).holdings.Apart := (onward_beforeRun e nb).apart ha
    rw [hr] at hran
    refine Or.inr ⟨(e.beforeRun nb).requestInPlaceOf record r, hran, ?_, ?_, ?_, ?_, ?_⟩
    · rw [htick, launch_of_get? runner hrecord]
      exact congrArg (_ :: ·) (congrArg Surroundings.requests surroundings_beforeRun)
    · exact cancelled_requestInPlaceOf hbefore hrecord
    · exact (onward_beforeRun e nb).issued_le
    · rw [htick]
      exact held?_launch runner hrecord
    · rw [htick]
      exact isCancelled_launch_fresh runner hbefore hrecord

/-- Runners that agree on runs that are not cancelled are the same to an engine. -/
theorem tick_congr {runner runner' : Runner κ ν} (ha : e.holdings.Apart)
    (h : ∀ q : Request κ ν, q.cancelled = false → runner q = runner' q) :
    e.tick runner nb = e.tick runner' nb := by
  refine Prod.ext rfl ?_
  rw [snd_tick, snd_tick, launchChosen, launchChosen]
  split
  · rfl
  · next r _ =>
    cases hrecord : (e.beforeRun nb).records.get? r.node.id with
    | none => rw [launch, launch, hrecord]
    | some record =>
      have hrequest := cancelled_requestInPlaceOf ((onward_beforeRun e nb).apart ha) hrecord
      rw [launch_of_get? runner hrecord, launch_of_get? runner' hrecord, h _ hrequest]

end Engine

/-! ## Histories -/

namespace World

variable {runner : Runner κ ν} {settings : Settings} {w : World κ ν} {id : CellId} {t : Token}

def RemovedDuring (runner : Runner κ ν) (w : World κ ν) (moves : List (Move κ)) (id : CellId) :
    Prop :=
  ∃ before after, moves = before ++ .tick :: after ∧
    id ∈ ((w.play runner before).report runner).removed

/-- A cell runs on the record that it has at the beginning. -/
def RerunsDuring (runner : Runner κ ν) (w : World κ ν) (moves : List (Move κ)) (id : CellId) :
    Prop :=
  ∃ before after, moves = before ++ .tick :: after ∧
    ((w.play runner before).report runner).ran = some id ∧ ¬ w.RemovedDuring runner before id

/-- A move that cancels the run of a cell. -/
def Ends (runner : Runner κ ν) (w : World κ ν) (id : CellId) : Move κ → Prop
  | .call _ => False
  | .tick => (w.report runner).ran = some id ∨ id ∈ (w.report runner).removed
  | .cancelAll => True

theorem onward_move (runner : Runner κ ν) (w : World κ ν) (m : Move κ) :
    Onward w.engine.holdings (w.move runner m).engine.holdings := by
  cases m with
  | call call => exact .refl _
  | tick => exact Engine.onward_tick runner w.engine w.notebook
  | cancelAll => exact Engine.onward_cancelAll w.engine

theorem onward_play (runner : Runner κ ν) (w : World κ ν) (moves : List (Move κ)) :
    Onward w.engine.holdings (w.play runner moves).engine.holdings := by
  induction moves generalizing w with
  | nil => exact .refl _
  | cons m rest ih => exact (onward_move runner w m).trans (ih (w.move runner m))

theorem apart_start (settings : Settings) : (start settings : World κ ν).engine.holdings.Apart :=
  ⟨fun _ _ hheld => (nomatch hheld), fun _ _ _ hheld => (nomatch hheld),
    fun _ hcancelled => (nomatch hcancelled)⟩

theorem Reachable.apart (hw : Reachable runner settings w) : w.engine.holdings.Apart := by
  induction hw with
  | start => exact apart_start settings
  | move m _ ih => exact (onward_move runner _ m).apart ih

theorem Reachable.congr {runner runner' : Runner κ ν}
    (h : ∀ q : Request κ ν, q.cancelled = false → runner q = runner' q)
    (hw : Reachable runner settings w) : Reachable runner' settings w := by
  induction hw with
  | start => exact .start
  | @move w m hw ih =>
    have hsame : w.move runner m = w.move runner' m := by
      cases m with
      | call call => rfl
      | tick =>
        exact congrArg (World.mk w.notebook)
          (congrArg Prod.snd (Engine.tick_congr hw.apart h))
      | cancelAll => rfl
    rw [hsame]
    exact .move m ih

theorem spares_move (hV : w.notebook.Valid) {m : Move κ} (hm : ¬ w.Ends runner id m) :
    Spares id w.engine.holdings (w.move runner m).engine.holdings := by
  cases m with
  | call call => exact .refl _ _
  | tick => exact Engine.spares_tick hV (fun h => hm (Or.inl h)) fun h => hm (Or.inr h)
  | cancelAll => exact absurd trivial hm

theorem isCancelled_move (hw : Reachable runner settings w) {m : Move κ} (hm : w.Ends runner id m)
    (ht : w.engine.holdings.held? id = some t) :
    (w.move runner m).engine.tokens.isCancelled t = true := by
  cases m with
  | call call => exact hm.elim
  | tick => exact Engine.isCancelled_tick hw.consistent.valid hw.apart hm ht
  | cancelAll => exact Engine.isCancelled_cancelAll ht

/-- A run that is not cancelled now is cancelled by the first move that ends it, and by nothing else. -/
theorem isCancelled_play_iff (hw : Reachable runner settings w)
    (ht : w.engine.holdings.held? id = some t) (hlive : w.engine.tokens.isCancelled t = false)
    (moves : List (Move κ)) :
    (w.play runner moves).engine.tokens.isCancelled t = true ↔
      ∃ before m after, moves = before ++ m :: after ∧ (w.play runner before).Ends runner id m := by
  induction moves generalizing w with
  | nil => simp [play, hlive]
  | cons m rest ih =>
    by_cases hm : w.Ends runner id m
    · refine iff_of_true ?_ ⟨[], m, rest, rfl, hm⟩
      exact (onward_play runner (w.move runner m) rest).cancelled t (isCancelled_move hw hm ht)
    · obtain ⟨ht', hsame⟩ := spares_move hw.consistent.valid hm hw.apart t ht
      refine (ih (.move m hw) ht' (hsame.trans hlive)).trans ⟨?_, ?_⟩
      · rintro ⟨before, m', after, rfl, hends⟩
        exact ⟨m :: before, m', after, rfl, hends⟩
      · rintro ⟨before, m', after, hsplit, hends⟩
        cases before with
        | nil =>
          obtain ⟨rfl, _⟩ := List.cons.inj hsplit
          exact absurd hends hm
        | cons m'' before =>
          obtain ⟨rfl, hrest⟩ := List.cons.inj hsplit
          exact ⟨before, m', after, hrest, hends⟩

theorem exists_ends_iff (runner : Runner κ ν) (w : World κ ν) (moves : List (Move κ))
    (id : CellId) :
    (∃ before m after, moves = before ++ m :: after ∧ (w.play runner before).Ends runner id m) ↔
      w.RerunsDuring runner moves id ∨ w.RemovedDuring runner moves id ∨
        Move.cancelAll ∈ moves := by
  constructor
  · rintro ⟨before, m, after, rfl, hends⟩
    cases m with
    | call call => exact hends.elim
    | cancelAll => exact Or.inr (Or.inr (by simp))
    | tick =>
      rcases hends with hran | hremoved
      · by_cases hbefore : w.RemovedDuring runner before id
        · obtain ⟨first, later, rfl, hremoved⟩ := hbefore
          exact Or.inr (Or.inl ⟨first, later ++ .tick :: after, by simp, hremoved⟩)
        · exact Or.inl ⟨before, after, rfl, hran, hbefore⟩
      · exact Or.inr (Or.inl ⟨before, after, rfl, hremoved⟩)
  · rintro (⟨before, after, rfl, hran, _⟩ | ⟨before, after, rfl, hremoved⟩ | hmem)
    · exact ⟨before, .tick, after, rfl, Or.inl hran⟩
    · exact ⟨before, .tick, after, rfl, Or.inr hremoved⟩
    · obtain ⟨before, after, rfl⟩ := List.append_of_mem hmem
      exact ⟨before, .cancelAll, after, rfl, trivial⟩

theorem requests_move (runner : Runner κ ν) (hw : Reachable runner settings w) (m : Move κ) :
    (w.move runner m).engine.requests = w.engine.requests ∨
      m = .tick ∧ ∃ q, Engine.Launches runner w.notebook w.engine q := by
  cases m with
  | call call => exact Or.inl rfl
  | cancelAll => exact Or.inl rfl
  | tick =>
    exact (Engine.launches_or_not runner hw.consistent.valid hw.apart).imp And.right
      fun h => ⟨rfl, h⟩

theorem Reachable.token_lt (hw : Reachable runner settings w) :
    ∀ q ∈ w.engine.requests, q.token.index < w.engine.tokens.issued := by
  induction hw with
  | start => exact fun _ h => nomatch h
  | @move w m hw ih =>
    intro q hq
    have hold : q ∈ w.engine.requests → q.token.index < (w.move runner m).engine.tokens.issued :=
      fun hq => Nat.lt_of_lt_of_le (ih q hq) (onward_move runner w m).issued_le
    rcases requests_move runner hw m with hsame | ⟨rfl, q', hq'⟩
    · exact hold (hsame ▸ hq)
    · rw [show (w.move runner .tick).engine.requests = _ from hq'.requests] at hq
      rcases List.mem_cons.mp hq with rfl | hq
      · exact (Reachable.move .tick hw).apart.held_lt _ _ hq'.held
      · exact hold hq

/-- Every request of a history was handed over by one of its ticks. -/
theorem exists_launches (runner : Runner κ ν) (settings : Settings) (moves : List (Move κ))
    {newer older : List (Request κ ν)} {q : Request κ ν}
    (h : ((start settings).play runner moves).engine.requests = newer ++ q :: older) :
    ∃ before after, moves = before ++ .tick :: after ∧
      ((start settings).play runner before).engine.requests = older ∧
      Engine.Launches runner ((start settings).play runner before).notebook
        ((start settings).play runner before).engine q := by
  induction moves using List.reverseRecOn generalizing newer with
  | nil => exact absurd h.symm (by simp [play, start, Engine.start])
  | append_singleton moves m ih =>
    have hlater : ∀ newer, ((start settings).play runner moves).engine.requests =
        newer ++ q :: older → ∃ before after, moves ++ [m] = before ++ .tick :: after ∧
          ((start settings).play runner before).engine.requests = older ∧
          Engine.Launches runner ((start settings).play runner before).notebook
            ((start settings).play runner before).engine q := by
      intro newer h
      obtain ⟨before, after, rfl, hq⟩ := ih h
      exact ⟨before, after ++ [m], by simp, hq⟩
    have hw : Reachable runner settings ((start settings).play runner moves) :=
      reachable_iff_play.mpr ⟨moves, rfl⟩
    rw [play_append] at h
    rcases requests_move runner hw m with hsame | ⟨rfl, q', hq'⟩
    · exact hlater newer (hsame.symm.trans h)
    · have hcons := hq'.requests.symm.trans h
      cases newer with
      | nil =>
        obtain ⟨rfl, holder⟩ := List.cons.inj hcons
        exact ⟨moves, [], rfl, holder, hq'⟩
      | cons _ newer =>
        obtain ⟨_, hrest⟩ := List.cons.inj hcons
        exact hlater newer hrest

/-- A run is handed over under a token that no request before it had and that is not cancelled. From
then on the token is cancelled if and only if the cell has run again on the same record, the record
has been dropped, or all runs have been cancelled. So literal code never finds its run
cancelled. -/
theorem token_lifetime (runner : Runner κ ν) (settings : Settings) (moves : List (Move κ)) :
    let e := ((start settings).play runner moves).engine
    (∀ newer q older, e.requests = newer ++ q :: older →
      q.cancelled = false ∧ (∀ q' ∈ older, q'.token ≠ q.token) ∧
      ∃ before after, moves = before ++ .tick :: after ∧
        let w := (start settings).play runner before
        let w' := w.move runner .tick
        w.engine.requests = older ∧ w'.engine.requests = q :: older ∧
        (w.report runner).ran = some q.cell ∧
        (e.tokens.isCancelled q.token = true ↔
          w'.RerunsDuring runner after q.cell ∨ w'.RemovedDuring runner after q.cell ∨
            Move.cancelAll ∈ after)) ∧
    ∀ calls : List (Move LiteralCode),
      ∀ q ∈ ((start settings).play Literal.run calls).engine.requests,
        Literal.run q = Literal.bindAll q.inputs ∅ q.code := by
  intro e
  constructor
  · intro newer q older hrequests
    obtain ⟨before, after, rfl, rfl, hq⟩ := exists_launches runner settings moves hrequests
    have hw : Reachable runner settings ((start settings).play runner before) :=
      reachable_iff_play.mpr ⟨before, rfl⟩
    refine ⟨hq.uncancelled, fun q' hq' heq => ?_, before, after, rfl, rfl, hq.requests, hq.ran, ?_⟩
    · have hlt := Nat.lt_of_lt_of_le (hw.token_lt q' hq') hq.issued_le
      exact Nat.lt_irrefl _ (heq ▸ hlt)
    · rw [← exists_ends_iff, ← isCancelled_play_iff (.move .tick hw) hq.held hq.live after]
      rw [show e = _ from congrArg World.engine (play_append runner _ before _)]
      rfl
  · intro calls q hq
    obtain ⟨newer, older, hsplit⟩ := List.append_of_mem hq
    obtain ⟨_, _, _, _, hlaunch⟩ := exists_launches Literal.run settings calls hsplit
    rw [Literal.run, hlaunch.uncancelled]
    rfl

/-- Only the run before a rerun of the same cell is cancelled. -/
example :
    let runner : Runner Nat Nat := fun q => pairAnswer q.cell q.code q.inputs
    let moves := pairMoves 5 ++ [.call (.requestRun ⟨0⟩), .tick]
    let e := ((start Settings.standard).play runner moves).engine
    e.requests.map (fun q => (q.cell, e.tokens.isCancelled q.token)) =
      [(⟨0⟩, false), (⟨1⟩, false), (⟨0⟩, true)] := by
  decide +kernel

end World

end Recalc
