import Recalc.Proofs.Engine.History
import Recalc.Proofs.Restamping

/-!
# Calls that leave no trace

Renaming the ticks of requests commutes with every step of the engine, and so with a tick
(`Engine.tick_restamp`). The notebook clock is not read by a tick at all: a call that was refused, or
that asks for a run of text, moves the clock and nothing else. If such calls are left out of a
history, every request later on falls on an earlier tick, in the same order as before
(`World.Resembles`), and all that can be seen stays as it is (`ignored_calls_leave_no_trace`).
-/

namespace Recalc

open scoped Time

variable {κ ν : Type} {φ ψ : ℕ → ℕ} {runner : Runner κ ν}

def Snapshot.restamp (φ : ℕ → ℕ) (s : Snapshot ν) : Snapshot ν :=
  { s with answered := s.answered.restamp φ }

def Event.restamp (φ : ℕ → ℕ) : Event ν → Event ν
  | .created s => .created (s.restamp φ)
  | .updated s => .updated (s.restamp φ)
  | .removed id => .removed id

namespace Engine

variable {e : Engine κ ν} {nb : Notebook κ} {id : CellId}

/-- The engine as if it had followed renamed requests. -/
def restamp (φ : ℕ → ℕ) (e : Engine κ ν) : Engine κ ν :=
  { e with
    records := e.records.map (Record.restamp φ)
    events := e.events.map (Event.restamp φ) }

theorem contains_restamp (φ : ℕ → ℕ) (e : Engine κ ν) :
    (e.restamp φ).records.contains = e.records.contains :=
  funext fun id => Table.contains_map (Record.restamp φ) e.records id

theorem get?_restamp (φ : ℕ → ℕ) (e : Engine κ ν) (id : CellId) :
    (e.restamp φ).records.get? id = (e.records.get? id).map (Record.restamp φ) :=
  Table.get?_map _ _ _

theorem restamp_emit (φ : ℕ → ℕ) (e : Engine κ ν) (event : Event ν) :
    (e.emit event).restamp φ = (e.restamp φ).emit (event.restamp φ) := rfl

theorem restamp_store (φ : ℕ → ℕ) (e : Engine κ ν) (id : CellId) (r : Record ν) :
    (e.store id r).restamp φ = (e.restamp φ).store id (r.restamp φ) := by
  rw [store, restamp_emit, restamp, Table.map_insert]
  rfl

theorem restamp_enroll (φ : ℕ → ℕ) (e : Engine κ ν) (id : CellId) :
    (e.enroll id).restamp φ = (e.restamp φ).enroll id := by
  rw [enroll, enroll, contains_restamp]
  split
  · rfl
  · rw [restamp_emit, restamp, Table.map_insert]
    rfl

theorem restamp_discharge (φ : ℕ → ℕ) (e : Engine κ ν) (id : CellId) :
    (e.discharge id).restamp φ = (e.restamp φ).discharge id := by
  rw [discharge, discharge, get?_restamp]
  cases e.records.get? id with
  | none => rfl
  | some r =>
    rw [Option.map_some]
    dsimp only
    rw [restamp_emit, restamp, Table.map_erase]
    rfl

theorem restamp_setWaiting (φ : ℕ → ℕ) (e : Engine κ ν) (id : CellId) (waiting : Bool) :
    (e.setWaiting id waiting).restamp φ = (e.restamp φ).setWaiting id waiting := by
  rw [setWaiting, setWaiting, get?_restamp]
  cases e.records.get? id with
  | none => rfl
  | some r =>
    rw [Option.map_some]
    dsimp only
    rw [apply_ite (restamp φ), restamp_store]
    rfl

theorem restamp_complete (φ : ℕ → ℕ) (e : Engine κ ν) (id : CellId) (answered : Time)
    (consulted : List CellId) (result : Result ν) :
    (e.complete id answered consulted result).restamp φ =
      (e.restamp φ).complete id (answered.restamp φ) consulted result := by
  rw [complete, complete, get?_restamp]
  cases e.records.get? id with
  | none => rfl
  | some r => exact restamp_store φ e id _

theorem consulted_restamp (φ : ℕ → ℕ) (e : Engine κ ν) (node : Node) :
    (e.restamp φ).consulted node = e.consulted node := by
  rw [consulted, contains_restamp, consulted]

theorem restamp_fire (φ : ℕ → ℕ) (e : Engine κ ν) (f : Faulty) :
    (e.fire f).restamp φ = (e.restamp φ).fire (f.restamp φ) := by
  rw [fire, restamp_complete, fire, consulted_restamp]
  rfl

theorem inputsOf_restamp (φ : ℕ → ℕ) (e : Engine κ ν) (node : Node) :
    (e.restamp φ).inputsOf node = e.inputsOf node := by
  have hvalue : (e.restamp φ).valueOf? = e.valueOf? := by
    funext source name
    rw [valueOf?, get?_restamp, valueOf?]
    cases e.records.get? source <;> rfl
  rw [inputsOf, hvalue, inputsOf]

theorem restamp_launch (φ : ℕ → ℕ) (runner : Runner κ ν) (e : Engine κ ν) (r : Runnable κ) :
    (e.launch runner r).restamp φ = (e.restamp φ).launch runner (r.restamp φ) := by
  have hget := get?_restamp φ e r.node.id
  cases hrecord : e.records.get? r.node.id with
  | none =>
    rw [hrecord] at hget
    rw [launch, hrecord, launch, show (r.restamp φ).node = r.node from rfl, hget]
    rfl
  | some record =>
    rw [hrecord] at hget
    have hrequest : (({ e with tokens := e.tokens.cancel record.token } : Engine κ ν).restamp
        φ).requestFor (r.restamp φ) =
          ({ e with tokens := e.tokens.cancel record.token } : Engine κ ν).requestFor r :=
      congrArg (Request.mk r.node.id r.code · _ _) (inputsOf_restamp φ _ r.node)
    rw [launch, hrecord]
    dsimp only
    rw [restamp_complete, restamp_store, launch, show (r.restamp φ).node = r.node from rfl, hget,
      consulted_restamp, ← hrequest]
    rfl

theorem restamp_foldl {α : Type} {f : Engine κ ν → α → Engine κ ν}
    (g : Engine κ ν → α → Engine κ ν)
    (h : ∀ e a, (f e a).restamp φ = g (e.restamp φ) a) (l : List α) (e : Engine κ ν) :
    (l.foldl f e).restamp φ = l.foldl g (e.restamp φ) :=
  (List.foldl_hom (restamp φ) fun e a => (h e a).symm).symm

/-! ## A tick -/

theorem restamp_enrollAll (φ : ℕ → ℕ) (e : Engine κ ν) (nb : Notebook κ) :
    (e.enrollAll nb).restamp φ = (e.restamp φ).enrollAll (nb.restamp φ) := by
  rw [enrollAll, restamp_foldl enroll (restamp_enroll φ), enrollAll,
    Notebook.codeIds_restamp]

theorem orphans_restamp (φ : ℕ → ℕ) (e : Engine κ ν) (nb : Notebook κ) :
    (e.restamp φ).orphans (nb.restamp φ) = e.orphans nb := by
  have hcode : (nb.restamp φ).hasCode = nb.hasCode := by
    funext id
    rw [Notebook.hasCode, Notebook.codeIds_restamp, Notebook.hasCode]
  rw [orphans, hcode, restamp, Table.keys_map, orphans]

theorem survey_restamp (hφ : StrictMono φ) (e : Engine κ ν) (nb : Notebook κ) :
    (e.restamp φ).survey (nb.restamp φ) = e.survey nb := by
  rw [survey, ← restamp_enrollAll, Plan.draft_restamp]
  exact Survey.ofPlan_restamp hφ _ _

theorem choice_restamp (hφ : StrictMono φ) (e : Engine κ ν) (nb : Notebook κ) :
    (e.restamp φ).choice (nb.restamp φ) = (e.choice nb).restamp φ := by
  rw [choice, survey_restamp hφ, ← restamp_enrollAll, Plan.draft_restamp]
  exact Choice.ofSurvey_restamp hφ _ _ _

theorem restamp_kept (φ : ℕ → ℕ) (e : Engine κ ν) (nb : Notebook κ) :
    (e.kept nb).restamp φ = (e.restamp φ).kept (nb.restamp φ) := by
  rw [kept, restamp_foldl discharge (restamp_discharge φ), kept, ← restamp_enrollAll,
    orphans_restamp]

theorem mustWait_restamp (φ : ℕ → ℕ) (survey : Survey) (choice : Choice κ) (id : CellId) :
    mustWait survey (choice.restamp φ) id = mustWait survey choice id := by
  rw [mustWait, Choice.restamp, List.any_map, Option.any_map]
  rfl

theorem restamp_markWaiting (φ : ℕ → ℕ) (e : Engine κ ν) (plan : Plan κ) (survey : Survey)
    (choice : Choice κ) :
    (e.markWaiting plan survey choice).restamp φ =
      (e.restamp φ).markWaiting (plan.restamp φ) survey (choice.restamp φ) := by
  have hstep (e : Engine κ ν) (id : CellId) :
      (e.setWaiting id (mustWait survey choice id)).restamp φ =
        (e.restamp φ).setWaiting id (mustWait survey (choice.restamp φ) id) := by
    rw [restamp_setWaiting, mustWait_restamp]
  rw [markWaiting, markWaiting, Plan.order_restamp]
  exact restamp_foldl _ hstep plan.order e

theorem restamp_marked (hφ : StrictMono φ) (e : Engine κ ν) (nb : Notebook κ) :
    (e.marked nb).restamp φ = (e.restamp φ).marked (nb.restamp φ) := by
  rw [marked, restamp_markWaiting, marked, survey_restamp hφ, choice_restamp hφ,
    Plan.draft_restamp, ← restamp_kept]
  rfl

theorem restamp_beforeRun (hφ : StrictMono φ) (e : Engine κ ν) (nb : Notebook κ) :
    (e.beforeRun nb).restamp φ = (e.restamp φ).beforeRun (nb.restamp φ) := by
  rw [beforeRun, beforeRun, choice_restamp hφ, Choice.restamp, List.foldl_map, ← restamp_marked hφ]
  exact restamp_foldl _ (restamp_fire φ) _ _

/-- Ticks take the requests of a notebook by their order alone. -/
theorem tick_restamp (hφ : StrictMono φ) (runner : Runner κ ν) (nb : Notebook κ)
    (e : Engine κ ν) :
    (e.restamp φ).tick runner (nb.restamp φ) =
      ((e.tick runner nb).1, (e.tick runner nb).2.restamp φ) := by
  have hchoice := choice_restamp hφ e nb
  refine Prod.ext ?_ ?_
  · have hnow : ((e.restamp φ).marked (nb.restamp φ)).now = (e.marked nb).now := by
      rw [← restamp_marked hφ]
      rfl
    have hfaults : ((e.restamp φ).choice (nb.restamp φ)).faults.map (fun f => f.node.id) =
        (e.choice nb).faults.map fun f => f.node.id := by
      rw [hchoice, Choice.restamp, List.map_map]
      rfl
    have hran : ((e.restamp φ).beforeRun (nb.restamp φ)).launched
          ((e.restamp φ).choice (nb.restamp φ)) = (e.beforeRun nb).launched (e.choice nb) := by
      rw [launched, ← restamp_beforeRun hφ, contains_restamp, hchoice, Choice.restamp,
        Option.map_map]
      rfl
    have hremoved : ((e.restamp φ).enrollAll (nb.restamp φ)).orphans (nb.restamp φ) =
        (e.enrollAll nb).orphans nb := by
      rw [← restamp_enrollAll, orphans_restamp]
    rw [fst_tick, hnow, survey_restamp hφ, hfaults, hran, hremoved, fst_tick]
  · rw [snd_tick, snd_tick, hchoice, ← restamp_beforeRun hφ, launchChosen, launchChosen]
    cases h : (e.choice nb).runnable with
    | none => simp only [Choice.restamp, h, Option.map_none]
    | some r =>
      simp only [Choice.restamp, h, Option.map_some]
      exact (restamp_launch φ runner _ r).symm

end Engine

namespace World

variable {settings : Settings} {w w' : World κ ν}

def restamp (φ : ℕ → ℕ) (w : World κ ν) : World κ ν :=
  ⟨w.notebook.restamp φ, w.engine.restamp φ⟩

theorem restamp_tick (hφ : StrictMono φ) (runner : Runner κ ν) (w : World κ ν) :
    (w.move runner .tick).restamp φ = (w.restamp φ).move runner .tick := by
  rw [move, restamp, move]
  exact congrArg (World.mk _) (congrArg Prod.snd
    (Engine.tick_restamp hφ runner w.notebook w.engine)).symm

theorem restamp_cancelAll (φ : ℕ → ℕ) (runner : Runner κ ν) (w : World κ ν) :
    (w.move runner .cancelAll).restamp φ = (w.restamp φ).move runner .cancelAll := by
  have hvalues : (w.restamp φ).engine.records.values =
      w.engine.records.values.map (Record.restamp φ) := by
    rw [restamp, Engine.restamp, Table.values, Table.map, List.map_map, Table.values, List.map_map]
    rfl
  rw [move, move, Engine.cancelAll, Engine.cancelAll, hvalues, List.foldl_map]
  rfl

/-- All requests that a world has seen are at ticks that the notebook clock has given out. -/
def Dated (w : World κ ν) : Prop :=
  ∀ ⦃φ ψ : ℕ → ℕ⦄, StrictMono φ → StrictMono ψ →
    (∀ n ≤ w.notebook.clock.ticks, φ n = ψ n) → w.restamp φ = w.restamp ψ

theorem Reachable.dated (hw : Reachable runner settings w) : w.Dated := by
  induction hw with
  | start => exact fun _ _ _ _ _ => rfl
  | @move w m hw ih =>
    intro φ ψ hφ hψ h
    cases m with
    | call call =>
      have hgrow := (Notebook.continues_apply w.notebook call).ticks_le
      have hengine : w.engine.restamp φ = w.engine.restamp ψ :=
        congrArg World.engine (ih hφ hψ fun n hn => h n (le_trans hn hgrow))
      have hnotebook := Notebook.restamp_congr (hw.consistent.valid.apply call) h
      exact congrArg₂ World.mk hnotebook hengine
    | tick => rw [restamp_tick hφ, ih hφ hψ h, restamp_tick hψ]
    | cancelAll => rw [restamp_cancelAll, ih hφ hψ h, restamp_cancelAll]

/-- A renaming continued by the distance from one clock to another. -/
def extend (φ : ℕ → ℕ) (past now : Clock) (n : ℕ) : ℕ :=
  if n ≤ past.ticks then φ n else now.ticks + (n - past.ticks)

theorem strictMono_extend (hφ : StrictMono φ) {past now : Clock}
    (hle : φ past.ticks ≤ now.ticks) : StrictMono (extend φ past now) := by
  intro m n hmn
  rw [extend, extend]
  split
  · next hm =>
    split
    · exact hφ hmn
    · have hm : φ m ≤ φ past.ticks := hφ.monotone hm
      omega
  · next hm =>
    rw [if_neg fun hn => hm (le_trans (le_of_lt hmn) hn)]
    omega

/-- A world agrees with one that has seen fewer calls, up to the ticks of requests. -/
structure Resembles (φ : ℕ → ℕ) (w w' : World κ ν) : Prop where
  strictMono : StrictMono φ
  restamp_eq : w.restamp id = w'.restamp φ
  ticks_le : φ w'.notebook.clock.ticks ≤ w.notebook.clock.ticks

def ignores (w : World κ ν) : Move κ → Bool
  | .call call => w.notebook.ignores call
  | _ => false

theorem Resembles.ignored (h : Resembles φ w w') {m : Move κ} (hm : w.ignores m = true) :
    Resembles φ (w.move runner m) w' := by
  cases m with
  | tick => cases hm
  | cancelAll => cases hm
  | call call =>
    refine ⟨h.strictMono, ?_, ?_⟩
    · rw [← h.restamp_eq]
      exact congrArg (World.mk · _) (Notebook.restamp_apply_of_ignores id hm)
    · exact le_trans h.ticks_le (Notebook.continues_apply w.notebook call).ticks_le

theorem Resembles.call (h : Resembles φ w w') (hw' : w'.Dated) (call : Call κ) :
    ∃ ψ, Resembles ψ (w.move runner (.call call)) (w'.move runner (.call call)) := by
  have hmono := strictMono_extend h.strictMono h.ticks_le
  -- the next tick of the one clock becomes the next tick of the other
  have hnow : w.restamp id = w'.restamp (extend φ w'.notebook.clock w.notebook.clock) := by
    rw [h.restamp_eq]
    exact hw' h.strictMono hmono fun n hn => (if_pos hn).symm
  have hnotebook := congrArg World.notebook hnow
  have hnext : id w.notebook.clock.advance.ticks =
      extend φ w'.notebook.clock w.notebook.clock w'.notebook.clock.advance.ticks := by
    simp [extend, Clock.advance]
  have htick : w.notebook.takesTick call = w'.notebook.takesTick call := by
    rw [← Notebook.takesTick_restamp id, ← Notebook.takesTick_restamp
      (extend φ w'.notebook.clock w.notebook.clock) w'.notebook]
    exact congrArg (Notebook.takesTick · call) hnotebook
  refine ⟨_, hmono, ?_, ?_⟩
  · exact congrArg₂ World.mk (Notebook.restamp_apply_congr hnotebook hnext call)
      (congrArg World.engine hnow)
  · rw [move, move, Notebook.clock_apply, Notebook.clock_apply, htick]
    split
    · exact le_of_eq hnext.symm
    · rw [extend, if_pos le_rfl]
      exact h.ticks_le

theorem Resembles.move (h : Resembles φ w w') (hw' : w'.Dated) (m : Move κ) :
    ∃ ψ, Resembles ψ (w.move runner m) (w'.move runner m) := by
  cases m with
  | call call => exact h.call hw' call
  | tick =>
    refine ⟨φ, h.strictMono, ?_, h.ticks_le⟩
    rw [restamp_tick strictMono_id, h.restamp_eq, restamp_tick h.strictMono]
  | cancelAll =>
    refine ⟨φ, h.strictMono, ?_, h.ticks_le⟩
    rw [restamp_cancelAll, h.restamp_eq, restamp_cancelAll]

/-! ## What can be seen -/

/-- What can be seen of a move: the cell of a call and why it was refused; of a tick its report, and
after it all requests to the runner and all snapshots, but for the request that each run answered. -/
inductive Reply (κ ν : Type)
  | called (cell : CellId) (refusal : Option Refusal)
  | ticked (report : Tick) (requests : List (Request κ ν)) (snapshots : List (Snapshot ν))
  | cancelled

def reply (runner : Runner κ ν) (w : World κ ν) : Move κ → Reply κ ν
  | .call call => .called (w.notebook.subject call) (w.notebook.refusal? call)
  | .tick =>
    let e := (w.move runner .tick).engine
    .ticked (w.report runner) e.requests
      (e.snapshots.map fun s => { s with answered := .earliest })
  | .cancelAll => .cancelled

def replies (runner : Runner κ ν) (w : World κ ν) : List (Move κ) → List (Reply κ ν)
  | [] => []
  | m :: rest => w.reply runner m :: (w.move runner m).replies runner rest

/-- The moves that are not ignored, each with the world in which it is made. -/
def heard (runner : Runner κ ν) (w : World κ ν) : List (Move κ) → List (Move κ × World κ ν)
  | [] => []
  | m :: rest =>
    let later := (w.move runner m).heard runner rest
    if w.ignores m then later else (m, w) :: later

theorem reply_restamp (hφ : StrictMono φ) (runner : Runner κ ν) (w : World κ ν) (m : Move κ) :
    (w.restamp φ).reply runner m = w.reply runner m := by
  cases m with
  | call call =>
    exact congrArg₂ Reply.called (Notebook.subject_restamp φ w.notebook call)
      (Notebook.refusal?_restamp φ w.notebook call)
  | tick =>
    have htick := Engine.tick_restamp hφ runner w.notebook w.engine
    have hreport : (w.restamp φ).report runner = w.report runner :=
      (congrArg Prod.fst htick).trans rfl
    rw [reply, ← restamp_tick hφ, hreport, reply]
    refine congrArg (Reply.ticked _ _) ?_
    rw [restamp, Engine.restamp, Engine.snapshots, Table.map, List.map_map, List.map_map,
      Engine.snapshots, List.map_map]
    rfl
  | cancelAll => rfl

theorem Resembles.reply_eq (h : Resembles φ w w') (m : Move κ) :
    w'.reply runner m = w.reply runner m := by
  rw [← reply_restamp h.strictMono, ← h.restamp_eq, reply_restamp strictMono_id]

theorem replies_heard (hw' : Reachable runner settings w') (h : Resembles φ w w')
    (moves : List (Move κ)) :
    w'.replies runner ((w.heard runner moves).map Prod.fst) =
      (w.heard runner moves).map fun p => p.2.reply runner p.1 := by
  induction moves generalizing φ w w' with
  | nil => rfl
  | cons m rest ih =>
    rw [heard]
    by_cases hm : w.ignores m = true
    · rw [if_pos hm]
      exact ih hw' (h.ignored hm)
    · obtain ⟨ψ, hnext⟩ : ∃ ψ, Resembles ψ (w.move runner m) (w'.move runner m) :=
        h.move hw'.dated m
      rw [if_neg hm]
      exact congrArg₂ List.cons (h.reply_eq m) (ih (.move m hw') hnext)

/-- Calls that are refused and requests to run text can be left out of a history: every other move is
answered as before. Nor does a tick see more of the requests of a notebook than their order,
although a call on a missing cell takes a tick of the clock. -/
theorem ignored_calls_leave_no_trace (runner : Runner κ ν) (settings : Settings)
    (moves : List (Move κ)) :
    let heard := (start settings).heard runner moves
    let w := (start settings).play runner moves
    (start settings).replies runner (heard.map Prod.fst) =
        heard.map (fun p => p.2.reply runner p.1) ∧
      (∀ φ : ℕ → ℕ, StrictMono φ → (w.restamp φ).reply runner .tick = w.reply runner .tick) ∧
      ∀ id source, (w.notebook.requestRun id).clock = w.notebook.clock.advance ∧
        (w.notebook.updateCode id source).clock = w.notebook.clock.advance := by
  intro heard w
  have hstart : Resembles id (start settings : World κ ν) (start settings) :=
    ⟨strictMono_id, rfl, le_rfl⟩
  exact ⟨replies_heard .start hstart moves, fun φ hφ => reply_restamp hφ runner w .tick,
    fun _ _ => ⟨rfl, rfl⟩⟩

/-- A request for a missing cell and one for text take two of three ticks. -/
example :
    let runner : Runner Nat Nat := fun q => pairAnswer q.cell q.code q.inputs
    let moves : List (Move Nat) := [.call (.requestRun ⟨7⟩), .call (.addText "notes"),
      .call (.requestRun ⟨0⟩), .call (.addCode (pairSource [] ["a"] 5)), .tick]
    let w : World Nat Nat := start Settings.standard
    let heard := (w.heard runner moves).map Prod.fst
    heard.length = 3 ∧ (w.play runner moves).notebook.clock.ticks = 3 ∧
      (w.play runner heard).notebook.clock.ticks = 1 := by
  decide +kernel

end World

end Recalc
