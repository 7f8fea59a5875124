import Recalc.Engine.Tick

/-!
# Histories

A world is a notebook with an engine that follows it. It starts empty, and every move is a call on the
notebook, a tick of the engine, or the cancelling of all runs. What can be reached is what a list of
moves leads to.
-/

namespace Recalc

structure World (κ ν : Type) where
  notebook : Notebook κ
  engine : Engine κ ν

inductive Move (κ : Type)
  | call (call : Call κ)
  | tick
  | cancelAll

namespace World

variable {κ ν : Type}

def start (settings : Settings) : World κ ν := ⟨Notebook.empty, Engine.start settings⟩

def move (runner : Runner κ ν) (w : World κ ν) : Move κ → World κ ν
  | .call call => { w with notebook := w.notebook.apply call }
  | .tick => { w with engine := (w.engine.tick runner w.notebook).2 }
  | .cancelAll => { w with engine := w.engine.cancelAll }

def play (runner : Runner κ ν) (w : World κ ν) (moves : List (Move κ)) : World κ ν :=
  moves.foldl (move runner) w

theorem play_append (runner : Runner κ ν) (w : World κ ν) (before after : List (Move κ)) :
    w.play runner (before ++ after) = (w.play runner before).play runner after :=
  List.foldl_append

inductive Reachable (runner : Runner κ ν) (settings : Settings) : World κ ν → Prop
  | start : Reachable runner settings (World.start settings)
  | move {w : World κ ν} (m : Move κ) :
    Reachable runner settings w → Reachable runner settings (w.move runner m)

theorem reachable_iff_play {runner : Runner κ ν} {settings : Settings} {w : World κ ν} :
    Reachable runner settings w ↔ ∃ moves, w = (World.start settings).play runner moves := by
  constructor
  · intro h
    induction h with
    | start => exact ⟨[], rfl⟩
    | move m _ ih =>
      obtain ⟨moves, rfl⟩ := ih
      exact ⟨moves ++ [m], by simp [play]⟩
  · rintro ⟨moves, rfl⟩
    suffices h : ∀ w : World κ ν, Reachable runner settings w →
        Reachable runner settings (w.play runner moves) from h _ .start
    induction moves with
    | nil => exact fun _ hw => hw
    | cons m rest ih => exact fun w hw => ih (w.move runner m) (.move m hw)

end World

end Recalc
