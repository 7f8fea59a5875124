import Recalc.Proofs.Engine.History

/-!
# What observers are told

An observer who puts down the snapshot of every event, and strikes it out when the cell is removed,
holds the snapshots of the engine (`events_complete`). An event fits what has been put down before it:
a cell is created once and then updated until it is removed. At most one cell is shown running, and
the next event is its result.

Every part of a tick keeps this up by itself (`Tells`): what it adds to the log leads from the
snapshots before it to those after it. Only a run adds two events, and no cell is shown running when
it is over.
-/

namespace Recalc

open scoped Time

variable {κ ν : Type}

abbrev Observed (ν : Type) := Table CellId (Snapshot ν)

namespace Event

def snapshot? : Event ν → Option (Snapshot ν)
  | created s => some s
  | updated s => some s
  | removed _ => none

def tell (shown : Observed ν) : Event ν → Observed ν
  | created s => shown.insert s.id s
  | updated s => shown.insert s.id s
  | removed id => shown.erase id

def Fits (shown : Observed ν) : Event ν → Prop
  | created s => shown.contains s.id = false
  | updated s => shown.contains s.id = true
  | removed id => shown.contains id = true

end Event

/-- What an observer has put down after a row of events, the earliest first. -/
def observed (log : List (Event ν)) : Observed ν := log.foldl Event.tell ∅

namespace Observed

variable {shown : Observed ν} {id : CellId} {s : Snapshot ν} {event : Event ν}

def Idle (shown : Observed ν) : Prop := ∀ id s, shown.get? id = some s → s.running = false

def OneRuns (shown : Observed ν) : Prop :=
  ∀ id s id' s', shown.get? id = some s → shown.get? id' = some s' → s.running = true →
    s'.running = true → id = id'

theorem idle_empty : Idle (∅ : Observed ν) := fun _ _ h => nomatch h

theorem Idle.oneRuns (h : Idle shown) : OneRuns shown := by
  intro id s _ _ hs _ hrunning _
  rw [h id s hs] at hrunning
  cases hrunning

theorem Idle.oneRuns_insert (h : Idle shown) (id : CellId) (s : Snapshot ν) :
    OneRuns (shown.insert id s) := by
  have hid : ∀ j t, (shown.insert id s).get? j = some t → t.running = true → j = id := by
    intro j t ht hrunning
    by_contra hj
    rw [Table.get?_insert_of_ne _ hj] at ht
    rw [h j t ht] at hrunning
    cases hrunning
  intro j t j' t' ht ht' hrunning hrunning'
  rw [hid j t ht hrunning, hid j' t' ht' hrunning']

theorem idle_insert (h : ∀ j t, j ≠ id → shown.get? j = some t → t.running = false)
    (hs : s.running = false) : Idle (shown.insert id s) := by
  intro j t ht
  by_cases hj : j = id
  · subst hj
    rw [Table.get?_insert_self, Option.some.injEq] at ht
    exact ht ▸ hs
  · rw [Table.get?_insert_of_ne _ hj] at ht
    exact h j t hj ht

theorem Idle.tell (h : Idle shown)
    (hevent : ∀ s, event.snapshot? = some s → s.running = false) : Idle (event.tell shown) := by
  cases event with
  | created s => exact idle_insert (fun j t _ => h j t) (hevent s rfl)
  | updated s => exact idle_insert (fun j t _ => h j t) (hevent s rfl)
  | removed id =>
    intro j t ht
    by_cases hj : j = id
    · subst hj
      rw [Event.tell, Table.get?_erase_self] at ht
      cases ht
    · rw [Event.tell, Table.get?_erase_of_ne _ hj] at ht
      exact h j t ht

end Observed

open Observed

/-- The snapshot of a cell after its run, which the engine asked the runner for. -/
structure Completes (runner : Runner κ ν) (requests : List (Request κ ν)) (s s' : Snapshot ν) :
    Prop where
  id_eq : s'.id = s.id
  running : s'.running = false
  waiting : s'.waiting = false
  computed : s.computed < s'.computed
  result : ∃ request ∈ requests, request.cell = s.id ∧
    s'.result = Engine.resultOf (runner request)

/-- An event at its place: what was put down before it, and which events come after it. -/
structure Announced (runner : Runner κ ν) (requests : List (Request κ ν)) (shown : Observed ν)
    (event : Event ν) (after : List (Event ν)) : Prop where
  fits : event.Fits shown
  oneRuns : OneRuns (event.tell shown)
  completed : ∀ s, event.snapshot? = some s → s.running = true →
    ∃ s' rest, after = .updated s' :: rest ∧ Completes runner requests s s'

def Coherent (runner : Runner κ ν) (requests : List (Request κ ν)) :
    Observed ν → List (Event ν) → Prop
  | _, [] => True
  | shown, event :: after =>
    Announced runner requests shown event after ∧ Coherent runner requests (event.tell shown) after

section Coherent

variable {runner : Runner κ ν} {requests requests' : List (Request κ ν)} {shown : Observed ν}
  {event : Event ν} {log before after more : List (Event ν)}

theorem announced_of_idle (hidle : Idle shown) (hfits : event.Fits shown)
    (hevent : ∀ s, event.snapshot? = some s → s.running = false) :
    Announced runner requests shown event after := by
  refine ⟨hfits, (hidle.tell hevent).oneRuns, fun s hs hrunning => ?_⟩
  rw [hevent s hs] at hrunning
  cases hrunning

theorem Announced.extend (h : Announced runner requests shown event after)
    (hrequests : requests ⊆ requests') (more : List (Event ν)) :
    Announced runner requests' shown event (after ++ more) := by
  refine ⟨h.fits, h.oneRuns, fun s hs hrunning => ?_⟩
  obtain ⟨s', rest, rfl, hid, hrun, hwait, hcomputed, request, hmem, hresult⟩ :=
    h.completed s hs hrunning
  exact ⟨s', rest ++ more, rfl, hid, hrun, hwait, hcomputed, request, hrequests hmem, hresult⟩

theorem Coherent.append (h : Coherent runner requests shown log) (hrequests : requests ⊆ requests')
    (hmore : Coherent runner requests' (log.foldl Event.tell shown) more) :
    Coherent runner requests' shown (log ++ more) := by
  induction log generalizing shown with
  | nil => exact hmore
  | cons event rest ih => exact ⟨h.1.extend hrequests more, ih h.2 hmore⟩

theorem Coherent.announced
    (h : Coherent runner requests shown (before ++ event :: after)) :
    Announced runner requests (before.foldl Event.tell shown) event after := by
  induction before generalizing shown with
  | nil => exact h.1
  | cons first rest ih => exact ih h.2

theorem Coherent.oneRuns (h : Coherent runner requests shown (before ++ after))
    (hidle : Idle shown) : OneRuns (before.foldl Event.tell shown) := by
  induction before using List.reverseRecOn with
  | nil => exact hidle.oneRuns
  | append_singleton before event _ =>
    rw [List.append_assoc, List.singleton_append] at h
    rw [List.foldl_append]
    exact h.announced.oneRuns

end Coherent

namespace Engine

variable {runner : Runner κ ν} {e e' e'' : Engine κ ν} {id : CellId} {r : Record ν}

/-- The snapshots of the engine by cell. -/
def shown (e : Engine κ ν) : Observed ν :=
  ⟨e.records.entries.map fun p => (p.1, p.2.snapshot p.1),
    List.pairwise_map.mpr e.records.ascending⟩

theorem get?_shown (e : Engine κ ν) (id : CellId) : e.shown.get? id = e.snapshot? id :=
  Table.valueAt?_map (fun id r => Record.snapshot r id) id e.records.entries

theorem contains_shown (e : Engine κ ν) (id : CellId) :
    e.shown.contains id = e.records.contains id := by
  rw [Table.contains, get?_shown, snapshot?, Option.isSome_map, Table.contains]

theorem shown_insert (e : Engine κ ν) (id : CellId) (r : Record ν) :
    { e with records := e.records.insert id r }.shown = e.shown.insert id (r.snapshot id) := by
  refine Table.ext fun j => ?_
  rw [get?_shown, snapshot?]
  by_cases hj : j = id
  · subst hj
    rw [Table.get?_insert_self, Table.get?_insert_self, Option.map_some]
  · rw [Table.get?_insert_of_ne _ hj, Table.get?_insert_of_ne _ hj, get?_shown, snapshot?]

theorem shown_erase (e : Engine κ ν) (id : CellId) :
    { e with records := e.records.erase id }.shown = e.shown.erase id := by
  refine Table.ext fun j => ?_
  rw [get?_shown, snapshot?]
  by_cases hj : j = id
  · subst hj
    rw [Table.get?_erase_self, Table.get?_erase_self, Option.map_none]
  · rw [Table.get?_erase_of_ne _ hj, Table.get?_erase_of_ne _ hj, get?_shown, snapshot?]

/-- From a moment at which no cell runs to a later one, the log tells observers every change of a
record. -/
structure Tells (runner : Runner κ ν) (e e' : Engine κ ν) : Prop where
  idle : Idle e.shown → Idle e'.shown
  requests : e.requests ⊆ e'.requests
  events : Idle e.shown → ∃ more, e'.events = more.reverse ++ e.events ∧
    Coherent runner e'.requests e.shown more ∧ more.foldl Event.tell e.shown = e'.shown

theorem Tells.of_eq (hrecords : e'.records = e.records) (hrequests : e'.requests = e.requests)
    (hevents : e'.events = e.events) : Tells runner e e' := by
  have hshown : e'.shown = e.shown := by simp only [shown, hrecords]
  exact ⟨fun h => hshown ▸ h, hrequests ▸ List.Subset.refl _,
    fun _ => ⟨[], hevents, trivial, hshown.symm⟩⟩

theorem Tells.refl (runner : Runner κ ν) (e : Engine κ ν) : Tells runner e e := .of_eq rfl rfl rfl

theorem Tells.trans (h : Tells runner e e') (h' : Tells runner e' e'') : Tells runner e e'' := by
  refine ⟨fun hidle => h'.idle (h.idle hidle), fun _ hq => h'.requests (h.requests hq),
    fun hidle => ?_⟩
  obtain ⟨more, hevents, hcoherent, hshown⟩ := h.events hidle
  obtain ⟨more', hevents', hcoherent', hshown'⟩ := h'.events (h.idle hidle)
  refine ⟨more ++ more', ?_, hcoherent.append h'.requests (hshown ▸ hcoherent'), ?_⟩
  · rw [hevents', hevents, List.reverse_append, List.append_assoc]
  · rw [List.foldl_append, hshown, hshown']

theorem Tells.foldl {β : Type} {op : Engine κ ν → β → Engine κ ν}
    (h : ∀ e b, Tells runner e (op e b)) (e : Engine κ ν) (l : List β) :
    Tells runner e (l.foldl op e) := by
  induction l generalizing e with
  | nil => exact .refl runner e
  | cons b rest ih => exact (h e b).trans (ih (op e b))

theorem running_of_idle (h : Idle e.shown) (hr : e.records.get? id = some r) :
    r.running = false :=
  h id (r.snapshot id) (by rw [get?_shown, snapshot?, hr, Option.map_some])

/-- One event of a cell that does not run. -/
theorem Tells.of_event (event : Event ν) (hevents : e'.events = event :: e.events)
    (hrequests : e'.requests = e.requests) (hshown : event.tell e.shown = e'.shown)
    (hfits : event.Fits e.shown)
    (hevent : Idle e.shown → ∀ s, event.snapshot? = some s → s.running = false) :
    Tells runner e e' := by
  refine ⟨fun hidle => hshown ▸ hidle.tell (hevent hidle), hrequests ▸ List.Subset.refl _,
    fun hidle => ?_⟩
  exact ⟨[event], hevents, ⟨announced_of_idle hidle hfits (hevent hidle), trivial⟩, hshown⟩

theorem tells_enroll (runner : Runner κ ν) (e : Engine κ ν) (id : CellId) :
    Tells runner e (e.enroll id) := by
  rw [enroll]
  split
  · exact .refl runner e
  · next hnew =>
    refine .of_event (.created ((Record.fresh e.tokens.fresh).snapshot id)) rfl rfl ?_ ?_ ?_
    · exact (shown_insert e id _).symm
    · exact (contains_shown e id).trans (by simpa using hnew)
    · rintro _ s ⟨⟩
      rfl

theorem tells_discharge (runner : Runner κ ν) (e : Engine κ ν) (id : CellId) :
    Tells runner e (e.discharge id) := by
  rw [discharge]
  split
  · exact .refl runner e
  · next r hr =>
    refine .of_event (.removed id) rfl rfl ?_ ?_ ?_
    · exact (shown_erase e id).symm
    · exact (contains_shown e id).trans (contains_of_get? hr)
    · rintro _ s ⟨⟩

theorem tells_store (runner : Runner κ ν) (h : e.records.contains id = true)
    (hr : Idle e.shown → r.running = false) : Tells runner e (e.store id r) := by
  refine .of_event (.updated (r.snapshot id)) rfl rfl ?_ ?_ ?_
  · exact (shown_insert e id r).symm
  · exact (contains_shown e id).trans h
  · rintro hidle s ⟨⟩
    exact hr hidle

theorem tells_setWaiting (runner : Runner κ ν) (e : Engine κ ν) (id : CellId) (waiting : Bool) :
    Tells runner e (e.setWaiting id waiting) := by
  rw [setWaiting]
  split
  · exact .refl runner e
  · next r hr =>
    split
    · exact .refl runner e
    · exact tells_store runner (contains_of_get? hr) fun hidle => running_of_idle (r := r) hidle hr

theorem tells_markWaiting (runner : Runner κ ν) (e : Engine κ ν) (plan : Plan κ) (survey : Survey)
    (choice : Choice κ) : Tells runner e (e.markWaiting plan survey choice) :=
  .foldl (fun e id => tells_setWaiting runner e id (mustWait survey choice id)) e plan.order

theorem tells_fire (runner : Runner κ ν) (e : Engine κ ν) (f : Faulty) :
    Tells runner e (e.fire f) := by
  rw [fire, complete]
  split
  · exact .refl runner e
  · next r hr => exact tells_store runner (contains_of_get? hr) fun _ => rfl

/-- Observers see a cell running and then at once with its result. -/
theorem tells_launch (runner : Runner κ ν) (e : Engine κ ν) (r : Runnable κ)
    (hnow : ∀ record, e.records.get? r.node.id = some record → record.computed < e.now) :
    Tells runner e (e.launch runner r) := by
  cases hr : e.records.get? r.node.id with
  | none =>
    rw [launch, hr]
    exact .refl runner e
  | some record =>
    let request := e.requestInPlaceOf record r
    let running := record.start request.token
    let completed := running.complete r.requested e.now (e.consulted r.node)
      (resultOf (runner request))
    have hlaunch : e.launch runner r =
        ((e.requesting record r).store r.node.id running).store r.node.id completed :=
      launch_of_get? runner hr
    have hshown : (e.launch runner r).shown =
        (e.shown.insert r.node.id (running.snapshot r.node.id)).insert r.node.id
          (completed.snapshot r.node.id) := by
      rw [hlaunch]
      exact (shown_insert _ _ _).trans (congrArg (Table.insert · _ _) (shown_insert (e.requesting record r) _ _))
    have hover : Idle e.shown → Idle (e.launch runner r).shown := by
      intro hidle
      rw [hshown]
      refine idle_insert (fun j t hj ht => hidle j t ?_) rfl
      rwa [Table.get?_insert_of_ne _ hj] at ht
    have hrequests : (e.launch runner r).requests = request :: e.requests := hlaunch ▸ rfl
    refine ⟨hover, hrequests ▸ List.subset_cons_self request e.requests, fun hidle => ?_⟩
    refine ⟨[.updated (running.snapshot r.node.id), .updated (completed.snapshot r.node.id)],
      hlaunch ▸ rfl, ⟨⟨?_, hidle.oneRuns_insert _ _, ?_⟩, ⟨?_, ?_, ?_⟩, trivial⟩, hshown.symm⟩
    · exact (contains_shown e _).trans (contains_of_get? hr)
    · rintro s ⟨⟩ _
      refine ⟨_, _, rfl, rfl, rfl, rfl, hnow record hr, request, ?_, rfl, rfl⟩
      exact hrequests ▸ List.mem_cons_self
    · change (e.shown.insert r.node.id _).contains r.node.id = true
      rw [Table.contains, Table.get?_insert_self]
      rfl
    · have hidle' := hover hidle
      rw [hshown] at hidle'
      exact hidle'.oneRuns
    · rintro s ⟨⟩ hrunning
      cases hrunning

theorem tells_beforeRun (runner : Runner κ ν) (e : Engine κ ν) (nb : Notebook κ) :
    Tells runner e (e.beforeRun nb) := by
  have henrolled : Tells runner e (e.enrollAll nb) := .foldl (tells_enroll runner) e nb.codeIds
  have hkept : Tells runner (e.enrollAll nb) (e.kept nb) := .foldl (tells_discharge runner) _ _
  have hadvanced : Tells runner (e.kept nb) { e.kept nb with clock := (e.kept nb).clock.advance } :=
    .of_eq rfl rfl rfl
  have hmarked : Tells runner (e.kept nb) (e.marked nb) :=
    hadvanced.trans (tells_markWaiting runner _ _ _ _)
  have hfired : Tells runner (e.marked nb) (e.beforeRun nb) := .foldl (tells_fire runner) _ _
  exact henrolled.trans (hkept.trans (hmarked.trans hfired))

end Engine

namespace World

variable {runner : Runner κ ν} {settings : Settings} {w : World κ ν}

theorem tells_tick (runner : Runner κ ν) (hw : w.Consistent) :
    Engine.Tells runner w.engine (w.move runner .tick).engine := by
  have hbefore := Engine.tells_beforeRun runner w.engine w.notebook
  change Engine.Tells runner w.engine (w.engine.tick runner w.notebook).2
  rw [Engine.snd_tick, Engine.launchChosen]
  split
  · exact hbefore
  · next r hr =>
    refine hbefore.trans (Engine.tells_launch runner _ r fun record hrecord => ?_)
    -- the cell that runs has not been served at this tick
    have hlt : ((w.engine.beforeRun w.notebook).imprint r.node.id).computed <
        w.engine.clock.advance.now := by
      rw [Engine.imprint_beforeRun_of_ne fun f hf =>
        (Engine.not_faulty_of_runnable hw.valid hr hf).symm, if_pos]
      · exact Clock.lt_now_advance_of_le (hw.computed_le r.node.id)
      · exact Engine.mem_codeIds_of_mem_entries hw.valid (Engine.mem_entries_of_runnable hr)
    rw [Engine.now_beforeRun]
    rwa [Engine.imprint_of_get? hrecord] at hlt

theorem tells_move (runner : Runner κ ν) (hw : w.Consistent) (m : Move κ) :
    Engine.Tells runner w.engine (w.move runner m).engine := by
  cases m with
  | call call => exact .refl runner w.engine
  | tick => exact tells_tick runner hw
  | cancelAll => exact .of_eq rfl rfl rfl

theorem Reachable.tells (h : Reachable runner settings w) :
    Engine.Tells runner (Engine.start settings) w.engine := by
  induction h with
  | start => exact .refl runner _
  | move m hw ih => exact ih.trans (tells_move runner hw.consistent m)

/-- After any history the events of the log lead an observer to the snapshots of the engine, and each of
them fits what the events before it have led to. -/
theorem events_complete (runner : Runner κ ν) (settings : Settings) (moves : List (Move κ)) :
    let e := ((start settings).play runner moves).engine
    let log := e.events.reverse
    (observed log).entries = e.snapshots.map (fun s => (s.id, s)) ∧
      (∀ before after, log = before ++ after → OneRuns (observed before)) ∧
      ∀ before event after, log = before ++ event :: after →
        Announced runner e.requests (observed before) event after := by
  intro e log
  have hw : Reachable runner settings ((start settings).play runner moves) :=
    reachable_iff_play.mpr ⟨moves, rfl⟩
  obtain ⟨more, hevents, hcoherent, hshown⟩ := hw.tells.events idle_empty
  have hlog : log = more := by
    have hevents : e.events = more.reverse := hevents.trans (List.append_nil _)
    rw [show log = e.events.reverse from rfl, hevents, List.reverse_reverse]
  rw [hlog]
  refine ⟨?_, fun before after hsplit => ?_, fun before event after hsplit => ?_⟩
  · have hobserved : observed more = e.shown := hshown
    rw [hobserved, Engine.snapshots, List.map_map]
    rfl
  · exact Coherent.oneRuns (hsplit ▸ hcoherent) idle_empty
  · exact Coherent.announced (hsplit ▸ hcoherent)

end World

end Recalc
