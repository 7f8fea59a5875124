import Recalc.Proofs.Engine.Progress

/-!
# Settling with a limit

A tick does not read the settings, so under other settings the same moves lead to the same world
(`World.play_adopt`). A limit is compared with the number of working ticks before the tick that would
find nothing stale: settling gives up after as many as the limit allows, and after one if it allows
none, whether or not anything is still stale by then. If it ends before that, it ends as without a
limit (`settle_with_limit`).
-/

namespace Recalc

variable {κ ν : Type}

namespace Engine

variable {runner : Runner κ ν}

/-- The engine under other settings. -/
def adopt (s : Settings) (e : Engine κ ν) : Engine κ ν := { e with settings := s }

theorem enroll_adopt (s : Settings) (e : Engine κ ν) (id : CellId) :
    (e.adopt s).enroll id = (e.enroll id).adopt s := by
  rw [enroll, enroll, apply_ite (adopt s)]
  rfl

theorem discharge_adopt (s : Settings) (e : Engine κ ν) (id : CellId) :
    (e.adopt s).discharge id = (e.discharge id).adopt s := by
  rw [discharge, discharge, show (e.adopt s).records = e.records from rfl]
  cases e.records.get? id <;> rfl

theorem setWaiting_adopt (s : Settings) (e : Engine κ ν) (id : CellId) (waiting : Bool) :
    (e.adopt s).setWaiting id waiting = (e.setWaiting id waiting).adopt s := by
  rw [setWaiting, setWaiting, show (e.adopt s).records = e.records from rfl]
  cases e.records.get? id with
  | none => rfl
  | some r =>
    dsimp only
    rw [apply_ite (adopt s)]
    rfl

theorem complete_adopt (s : Settings) (e : Engine κ ν) (id : CellId) (answered : Time)
    (consulted : List CellId) (result : Result ν) :
    (e.adopt s).complete id answered consulted result =
      (e.complete id answered consulted result).adopt s := by
  rw [complete, complete, show (e.adopt s).records = e.records from rfl]
  cases e.records.get? id <;> rfl

theorem fire_adopt (s : Settings) (e : Engine κ ν) (f : Faulty) :
    (e.adopt s).fire f = (e.fire f).adopt s :=
  complete_adopt s e f.node.id f.requested (e.consulted f.node) (.threw f.fault)

theorem launch_adopt (s : Settings) (runner : Runner κ ν) (e : Engine κ ν) (r : Runnable κ) :
    (e.adopt s).launch runner r = (e.launch runner r).adopt s := by
  rw [launch, launch, show (e.adopt s).records = e.records from rfl]
  cases e.records.get? r.node.id with
  | none => rfl
  | some record =>
    dsimp only
    rw [← complete_adopt]
    rfl

theorem foldl_adopt {α : Type} {step : Engine κ ν → α → Engine κ ν} {s : Settings}
    (h : ∀ e a, step (e.adopt s) a = (step e a).adopt s) (l : List α) (e : Engine κ ν) :
    l.foldl step (e.adopt s) = (l.foldl step e).adopt s :=
  List.foldl_hom (adopt s) h

theorem enrollAll_adopt (s : Settings) (e : Engine κ ν) (nb : Notebook κ) :
    (e.adopt s).enrollAll nb = (e.enrollAll nb).adopt s :=
  foldl_adopt (enroll_adopt s) nb.codeIds e

theorem survey_adopt (s : Settings) (e : Engine κ ν) (nb : Notebook κ) :
    (e.adopt s).survey nb = e.survey nb := by
  rw [survey, enrollAll_adopt]
  rfl

theorem choice_adopt (s : Settings) (e : Engine κ ν) (nb : Notebook κ) :
    (e.adopt s).choice nb = e.choice nb := by
  rw [choice, survey_adopt, enrollAll_adopt]
  rfl

theorem markWaiting_adopt (s : Settings) (e : Engine κ ν) (plan : Plan κ) (survey : Survey)
    (choice : Choice κ) :
    (e.adopt s).markWaiting plan survey choice = (e.markWaiting plan survey choice).adopt s := by
  rw [markWaiting, markWaiting]
  exact foldl_adopt (fun e id => setWaiting_adopt s e id (mustWait survey choice id)) _ e

theorem marked_adopt (s : Settings) (e : Engine κ ν) (nb : Notebook κ) :
    (e.adopt s).marked nb = (e.marked nb).adopt s := by
  have hkept : (e.adopt s).kept nb = (e.kept nb).adopt s := by
    rw [kept, enrollAll_adopt]
    exact foldl_adopt (discharge_adopt s) _ _
  rw [marked, hkept, survey_adopt, choice_adopt, marked, ← markWaiting_adopt]
  rfl

/-- A tick does not read the settings. -/
theorem tick_adopt (s : Settings) (runner : Runner κ ν) (nb : Notebook κ) (e : Engine κ ν) :
    (e.adopt s).tick runner nb = ((e.tick runner nb).1, (e.tick runner nb).2.adopt s) := by
  have hbefore : (e.adopt s).beforeRun nb = (e.beforeRun nb).adopt s := by
    rw [beforeRun, choice_adopt, marked_adopt]
    exact foldl_adopt (fire_adopt s) _ _
  refine Prod.ext ?_ ?_
  · rw [fst_tick, choice_adopt, survey_adopt, hbefore, marked_adopt, enrollAll_adopt]
    rfl
  · rw [snd_tick, choice_adopt, hbefore, launchChosen]
    rw [snd_tick, launchChosen]
    cases (e.choice nb).runnable with
    | none => rfl
    | some r => exact launch_adopt s runner _ r

end Engine

namespace World

variable {runner : Runner κ ν} {settings : Settings} {w : World κ ν}

/-- The world under other settings. -/
def adopt (s : Settings) (w : World κ ν) : World κ ν := ⟨w.notebook, w.engine.adopt s⟩

theorem move_adopt (s : Settings) (runner : Runner κ ν) (w : World κ ν) (m : Move κ) :
    (w.adopt s).move runner m = (w.move runner m).adopt s := by
  cases m with
  | call call => rfl
  | tick => exact congrArg (World.mk _) (congrArg Prod.snd (Engine.tick_adopt s runner _ _))
  | cancelAll => rfl

theorem play_adopt (s : Settings) (runner : Runner κ ν) (w : World κ ν) (moves : List (Move κ)) :
    (w.adopt s).play runner moves = (w.play runner moves).adopt s :=
  List.foldl_hom (adopt s) (move_adopt s runner)

theorem play_start (s s' : Settings) (runner : Runner κ ν) (moves : List (Move κ)) :
    (start s').play runner moves = ((start s).play runner moves).adopt s' :=
  play_adopt s' runner (start s) moves

theorem afterTicks_adopt (s : Settings) (runner : Runner κ ν) (w : World κ ν) (n : Nat) :
    (w.adopt s).afterTicks runner n = (w.afterTicks runner n).adopt s := by
  induction n generalizing w with
  | zero => rfl
  | succ n ih => rw [← afterTicks_move, move_adopt, ih, afterTicks_move]

theorem settled_adopt_iff (s : Settings) : (w.adopt s).Settled ↔ w.Settled := by
  rw [Settled, adopt, Engine.survey_adopt, Settled]

/-- Settling with a limit gives up if each of the ticks that the limit allows finds something stale,
where at least one tick is allowed. Otherwise it ends as settling without a limit does, at fewer
ticks than are allowed. -/
theorem settle_with_limit (runner : Runner κ ν) (limit eventCapacity : Nat) (moves : List (Move κ))
    (patience : Nat) (hpatience : max limit 1 ≤ patience) :
    let w := (start ⟨some limit, eventCapacity⟩ : World κ ν).play runner moves
    let free := (start ⟨none, eventCapacity⟩ : World κ ν).play runner moves
    let settling := w.engine.settle runner w.notebook patience
    let unlimited := free.engine.settle runner free.notebook patience
    (settling.1 = .limitReached limit ↔
      ∀ i < max limit 1, ((w.afterTicks runner i).engine.tick runner w.notebook).1.stale ≠ []) ∧
    (∀ ticks, settling.1 = .settled ticks ↔
      ticks < max limit 1 ∧ unlimited.1 = .settled ticks) ∧
    (settling.1 = .limitReached limit ∨
      unlimited = (settling.1, settling.2.adopt ⟨none, eventCapacity⟩)) := by
  intro w free settling unlimited
  have hw : Reachable runner ⟨some limit, eventCapacity⟩ w := reachable_iff_play.mpr ⟨moves, rfl⟩
  have hfree : Reachable runner ⟨none, eventCapacity⟩ free := reachable_iff_play.mpr ⟨moves, rfl⟩
  have hadopt : free = w.adopt ⟨none, eventCapacity⟩ := play_start _ _ runner moves
  have hlater : ∀ i, free.afterTicks runner i =
      (w.afterTicks runner i).adopt ⟨none, eventCapacity⟩ := fun i => by
    rw [hadopt, afterTicks_adopt]
  have hsame : ∀ i, (free.afterTicks runner i).Settled ↔ (w.afterTicks runner i).Settled :=
    fun i => by rw [hlater, settled_adopt_iff]
  have hstale : ∀ i, ((w.afterTicks runner i).engine.tick runner w.notebook).1.stale ≠ [] ↔
      ¬ (w.afterTicks runner i).Settled := fun i => by
    have hnotebook : (w.afterTicks runner i).notebook = w.notebook := notebook_afterTicks i
    rw [← hnotebook]
    exact Iff.rfl
  by_cases hex : ∃ n, n < max limit 1 ∧ (w.afterTicks runner n).Settled
  · obtain ⟨n, ⟨hroom, hsettled⟩, hbefore⟩ := Nat.findX hex
    have hfirst : ∀ i, i < n → ¬ (w.afterTicks runner i).Settled := fun i hi h =>
      hbefore i hi ⟨by omega, h⟩
    have hsettling : settling = (.settled n, (w.afterTicks runner (n + 1)).engine) := by
      have h := settleFrom_of_room hw hfirst hsettled (by omega : n < patience) 0
        fun _ hlimit => Option.some.inj hlimit ▸ hroom
      rwa [Nat.zero_add] at h
    have hunlimited : unlimited = (.settled n, (free.afterTicks runner (n + 1)).engine) := by
      have h := settleFrom_of_settled_afterTicks hfree rfl
        (fun i hi hsettled => hfirst i hi ((hsame i).mp hsettled)) ((hsame n).mpr hsettled)
        (by omega : n < patience) 0
      rwa [Nat.zero_add] at h
    rw [hsettling, hunlimited, hlater]
    refine ⟨?_, fun ticks => ?_, Or.inr rfl⟩
    · constructor
      · rintro ⟨⟩
      · exact fun h => absurd hsettled ((hstale n).mp (h n hroom))
    · constructor
      · rintro ⟨⟩
        exact ⟨hroom, rfl⟩
      · exact And.right
  · have hnever : ∀ i, i < max limit 1 → ¬ (w.afterTicks runner i).Settled := fun i hi h =>
      hex ⟨i, hi, h⟩
    have hsettling : settling = (.limitReached limit, (w.afterTicks runner (max limit 1)).engine) :=
      settleFrom_of_limit hw rfl hnever hpatience 0 rfl
    rw [hsettling]
    refine ⟨⟨fun _ i hi => (hstale i).mpr (hnever i hi), fun _ => rfl⟩, fun ticks => ?_, Or.inl rfl⟩
    constructor
    · rintro ⟨⟩
    · rintro ⟨hroom, hend⟩
      obtain ⟨k, hk, _, hlast, _⟩ := settled_of_settleFrom hfree (Prod.ext hend rfl)
      obtain rfl : ticks = k := hk.trans (Nat.zero_add k)
      exact absurd ((hsame ticks).mp hlast) (hnever ticks hroom)

/-- Two cells in a row need two ticks, which is one fewer than are allowed. -/
theorem settle_within_limit :
    let runner : Runner Nat Nat := fun q => pairAnswer q.cell q.code q.inputs
    let moves : List (Move Nat) := [.call (.addCode (pairSource [] ["a"] 1)),
      .call (.addCode (pairSource ["a"] ["b"] 10))]
    let w := (start ⟨some 3, 256⟩ : World Nat Nat).play runner moves
    max 3 1 ≤ 4 ∧ (w.engine.settle runner w.notebook 4).1 = .settled 2 := by
  intro runner moves w
  have hpatience : max 3 1 ≤ 4 := by decide
  refine ⟨hpatience, ((settle_with_limit runner 3 256 moves 4 hpatience).2.1 2).mpr ⟨?_, ?_⟩⟩
  · decide
  · decide +kernel

/-- One cell needs one tick. If that is all the limit allows, settling gives up, though nothing is
stale any more and settling without a limit would end. -/
theorem settled_at_limit :
    let runner : Runner Nat Nat := fun q => pairAnswer q.cell q.code q.inputs
    let moves : List (Move Nat) := [.call (.addCode (pairSource [] ["a"] 1))]
    let w := (start ⟨some 1, 256⟩ : World Nat Nat).play runner moves
    let free := (start ⟨none, 256⟩ : World Nat Nat).play runner moves
    (w.engine.settle runner w.notebook 2).1 = .limitReached 1 ∧
      ((w.afterTicks runner 1).engine.tick runner w.notebook).1.stale = [] ∧
      (free.engine.settle runner free.notebook 2).1 = .settled 1 := by
  decide +kernel

end World

end Recalc
