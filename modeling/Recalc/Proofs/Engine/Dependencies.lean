import Recalc.Proofs.Engine.Results
import Recalc.Proofs.Engine.Settled

/-!
# What the records of a settled engine name

When nothing is stale, the record of every code cell answers the last request of its cell and names
the inputs that the cell has now, in their order, none of which has been computed later
(`settled_records_up_to_date`). The run that left the record may lie far back: that no edit since has
changed the inputs without making the cell stale is what `quiet_of_settled` says.
-/

namespace Recalc

open Relation
open scoped Time

variable {κ ν : Type}

/-- The record of a code cell that agrees with the notebook. Cells on one cycle were computed at the
same tick. -/
structure UpToDate (nb : Notebook κ) (e : Engine κ ν) (c : Cell κ) (r : Record ν) : Prop where
  answered : r.answered = c.requested
  consulted : r.consulted = (Plan.graphOf nb).sources c.id
  computed_after : ∀ u ∈ r.consulted, ∃ s, e.records.get? u = some s ∧ s.computed ≤ r.computed
  computed_with : ∀ u, TransGen (Plan.graphOf nb).Feeds u c.id →
    TransGen (Plan.graphOf nb).Feeds c.id u →
      ∃ s, e.records.get? u = some s ∧ s.computed = r.computed

namespace World

variable {runner : Runner κ ν} {settings : Settings} {w : World κ ν} {c : Cell κ} {id : CellId}

section Settled

variable (hw : Reachable runner settings w) (hsettled : w.Settled)

include hw hsettled

theorem exists_record_of_settled (hid : id ∈ w.notebook.codeIds) :
    ∃ r, w.engine.records.get? id = some r ∧ w.engine.imprint id = r.imprint := by
  obtain ⟨r, hr⟩ := Option.isSome_iff_exists.mp (contains_of_settled hw hsettled hid)
  exact ⟨r, hr, Engine.imprint_of_get? hr⟩

/-- The record of a cell that feeds another, and which of the two was computed first. -/
theorem exists_record_of_reach {r : Record ν} (hc : c ∈ w.notebook.codeCells)
    (hr : w.engine.imprint c.id = r.imprint) {u : CellId}
    (hreach : ReflTransGen (Plan.graphOf w.notebook).Feeds u c.id) :
    ∃ s, w.engine.records.get? u = some s ∧ w.engine.imprint u = s.imprint ∧
      s.computed ≤ r.computed := by
  have hmem := mem_codeIds_of_reach hw.consistent.valid (List.mem_map_of_mem hc) hreach
  obtain ⟨s, hs, himprint⟩ := exists_record_of_settled hw hsettled hmem
  have hle := computed_le_of_reach hw hsettled hreach
  rw [himprint, hr] at hle
  exact ⟨s, hs, himprint, hle⟩

theorem upToDate_of_settled (hc : c ∈ w.notebook.codeCells) :
    ∃ r, w.engine.records.get? c.id = some r ∧ UpToDate w.notebook w.engine c r := by
  obtain ⟨r, hr, himprint⟩ := exists_record_of_settled hw hsettled (List.mem_map_of_mem hc)
  have hanswered : r.imprint.answered = c.requested :=
    himprint ▸ le_antisymm (hw.answered_le c hc) (answered_of_settled hw hsettled hc)
  have hconsulted : r.imprint.consulted = (Plan.graphOf w.notebook).sources c.id :=
    himprint ▸ (quiet_of_settled hw hsettled hc).consulted
  refine ⟨r, hr, hanswered, hconsulted, fun u hu => ?_, fun u hto hfrom => ?_⟩
  · have hfeeds : (Plan.graphOf w.notebook).Feeds u c.id :=
      Graph.mem_sources_iff.mp (hconsulted ▸ hu)
    obtain ⟨s, hs, _, hle⟩ := exists_record_of_reach hw hsettled hc himprint (.single hfeeds)
    exact ⟨s, hs, hle⟩
  · obtain ⟨s, hs, himprint', hle⟩ :=
      exists_record_of_reach hw hsettled hc himprint hto.to_reflTransGen
    have hge := computed_le_of_reach hw hsettled hfrom.to_reflTransGen
    rw [himprint, himprint'] at hge
    exact ⟨s, hs, le_antisymm hle hge⟩

end Settled

/-- After a tick that found nothing stale, whatever history led there, the record of every code cell is
up to date. -/
theorem settled_records_up_to_date (runner : Runner κ ν) (settings : Settings)
    (moves : List (Move κ)) :
    let w := (start settings).play runner moves
    let e := (w.move runner .tick).engine
    (w.report runner).stale = [] → ∀ c ∈ w.notebook.codeCells,
      ∃ r, e.records.get? c.id = some r ∧ UpToDate w.notebook e c r := by
  intro w e hstale c hc
  have hw : Reachable runner settings w := reachable_iff_play.mpr ⟨moves, rfl⟩
  have hsettled : w.Settled := hstale
  exact upToDate_of_settled (.move .tick hw) (settled_tick hw hsettled) hc

/-- An input is removed and comes back behind the other one. When all is settled, the reader names the
two in their new order. -/
theorem settled_records_name_inputs_in_order :
    let runner : Runner Nat Nat := fun q => pairAnswer q.cell q.code q.inputs
    let moves : List (Move Nat) := [.call (.addCode (pairSource [] ["a"] 5)),
      .call (.addCode (pairSource [] ["b"] 7)), .call (.addCode (pairSource ["a", "b"] ["c"] 10)),
      .tick, .tick, .tick, .tick, .call (.remove ⟨0⟩),
      .call (.insert ⟨0⟩ (.code (pairSource [] ["a"] 6))), .tick, .tick]
    let w := (start Settings.standard).play runner moves
    let e := (w.move runner .tick).engine
    (w.report runner).stale = [] ∧ ∃ c ∈ w.notebook.codeCells, c.id = ⟨2⟩ ∧
      ∃ r, e.records.get? ⟨2⟩ = some r ∧ UpToDate w.notebook e c r ∧ r.consulted = [⟨1⟩, ⟨0⟩] := by
  intro runner moves w e
  have hstale : (w.report runner).stale = [] := by decide +kernel
  have hmem : (⟨2⟩ : CellId) ∈ w.notebook.codeIds := by decide +kernel
  have hsources : (Plan.graphOf w.notebook).sources ⟨2⟩ = [⟨1⟩, ⟨0⟩] := by decide +kernel
  obtain ⟨c, hc, hid⟩ := List.mem_map.mp hmem
  obtain ⟨r, hr, hcurrent⟩ :=
    settled_records_up_to_date runner Settings.standard moves hstale c hc
  rw [hid] at hr
  refine ⟨hstale, c, hc, hid, r, hr, hcurrent, ?_⟩
  rw [hcurrent.consulted, hid, hsources]

end World

end Recalc
