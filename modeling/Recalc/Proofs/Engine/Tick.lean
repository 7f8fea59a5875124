import Recalc.Proofs.Choice
import Recalc.Proofs.Engine.Imprint

/-!
# What a tick leaves behind

After a tick exactly the code cells of the notebook have records. A cell that the tick serves has the
imprint of its fault or of the answer to its run, stamped with the time of the tick; every other code
cell keeps its imprint. What the runner is given for a run can still be read off the records when
the tick is over, because a cell that runs does not read from itself.
-/

namespace Recalc

open Relation
open scoped Time

namespace Engine

variable {κ ν : Type} {e : Engine κ ν} {nb : Notebook κ} {id : CellId} {runner : Runner κ ν}

def survey (e : Engine κ ν) (nb : Notebook κ) : Survey :=
  Survey.ofPlan (Plan.draft nb) (e.enrollAll nb).records

theorem nodup_stale (e : Engine κ ν) (nb : Notebook κ) : (e.survey nb).stale.Nodup :=
  Survey.nodup_stale_ofPlan _ _

def choice (e : Engine κ ν) (nb : Notebook κ) : Choice κ :=
  Choice.ofSurvey (Plan.draft nb) (e.survey nb) (e.enrollAll nb).records

def Serves (e : Engine κ ν) (nb : Notebook κ) (id : CellId) : Prop :=
  (∃ f ∈ (e.choice nb).faults, f.node.id = id) ∨
    ∃ r, (e.choice nb).runnable = some r ∧ r.node.id = id

/-- The engine of a tick once the records of new cells are opened and those of deleted cells gone. -/
def kept (e : Engine κ ν) (nb : Notebook κ) : Engine κ ν :=
  ((e.enrollAll nb).orphans nb).foldl discharge (e.enrollAll nb)

def marked (e : Engine κ ν) (nb : Notebook κ) : Engine κ ν :=
  { e.kept nb with clock := (e.kept nb).clock.advance }.markWaiting (Plan.draft nb) (e.survey nb)
    (e.choice nb)

/-- The engine of a tick when only the run is still to come. -/
def beforeRun (e : Engine κ ν) (nb : Notebook κ) : Engine κ ν :=
  (e.choice nb).faults.foldl fire (e.marked nb)

theorem fst_tick : (e.tick runner nb).1 =
    { time := (e.marked nb).now
      stale := (e.survey nb).stale
      fired := (e.choice nb).faults.map fun f => f.node.id
      ran := (e.beforeRun nb).launched (e.choice nb)
      removed := (e.enrollAll nb).orphans nb } := rfl

theorem snd_tick : (e.tick runner nb).2 = (e.beforeRun nb).launchChosen runner (e.choice nb) := rfl

theorem fired_tick :
    (e.tick runner nb).1.fired = (e.choice nb).faults.map fun f => f.node.id := rfl

/-! ## Before the run -/

theorem get?_kept : (e.kept nb).records.get? id =
    if id ∈ nb.codeIds then (e.enrollAll nb).records.get? id else none := by
  have horphans : id ∈ (e.enrollAll nb).orphans nb ↔
      (e.enrollAll nb).records.contains id = true ∧ id ∉ nb.codeIds := by
    simp [orphans, Table.mem_keys_iff, Notebook.hasCode]
  rw [kept, get?_foldl_discharge]
  by_cases hid : id ∈ nb.codeIds
  · rw [if_neg fun h => (horphans.mp h).2 hid, if_pos hid]
  · rw [if_neg hid]
    by_cases hc : (e.enrollAll nb).records.contains id = true
    · rw [if_pos (horphans.mpr ⟨hc, hid⟩)]
    · rw [if_neg fun h => hc (horphans.mp h).1]
      simpa [Table.contains] using hc

theorem contains_kept : (e.kept nb).records.contains id = true ↔ id ∈ nb.codeIds := by
  rw [Table.contains, get?_kept]
  split
  · next hid => exact iff_of_true (contains_enrollAll_iff.mpr (Or.inr hid)) hid
  · next hid => exact iff_of_false Bool.false_ne_true hid

theorem imprint_kept :
    (e.kept nb).imprint id = if id ∈ nb.codeIds then e.imprint id else .blank := by
  split
  · next hid =>
    rw [← imprint_enrollAll e nb]
    exact imprint_congr (get?_kept.trans (if_pos hid))
  · next hid =>
    refine imprint_of_not_contains (Bool.eq_false_iff.mpr fun h => hid ?_)
    exact contains_kept.mp h

theorem surroundings_kept : (e.kept nb).surroundings = e.surroundings :=
  (foldl_invariant surroundings surroundings_discharge _ _).trans (surroundings_enrollAll e nb)

theorem surroundings_beforeRun :
    (e.beforeRun nb).surroundings = ⟨e.settings, e.clock.advance, e.requests⟩ := by
  have hkept : (e.kept nb).surroundings = e.surroundings := surroundings_kept
  rw [beforeRun, surroundings_foldl_fire, marked, surroundings_markWaiting]
  simp only [surroundings, Surroundings.mk.injEq] at hkept ⊢
  exact ⟨hkept.1, congrArg Clock.advance hkept.2.1, hkept.2.2⟩

theorem now_marked : (e.marked nb).now = e.clock.advance.now := by
  have h : (e.beforeRun nb).surroundings = (e.marked nb).surroundings :=
    surroundings_foldl_fire _ _
  rw [surroundings_beforeRun] at h
  exact congrArg Clock.now (congrArg Surroundings.clock h.symm)

theorem now_beforeRun : (e.beforeRun nb).now = e.clock.advance.now :=
  congrArg Clock.now (congrArg Surroundings.clock surroundings_beforeRun)

theorem contains_marked : (e.marked nb).records.contains id = true ↔ id ∈ nb.codeIds := by
  rw [marked, contains_markWaiting]
  exact contains_kept

theorem contains_beforeRun :
    (e.beforeRun nb).records.contains id = true ↔ id ∈ nb.codeIds := by
  rw [beforeRun, contains_foldl_fire]
  exact contains_marked

theorem imprint_beforeRun_of_ne (h : ∀ f ∈ (e.choice nb).faults, f.node.id ≠ id) :
    (e.beforeRun nb).imprint id = if id ∈ nb.codeIds then e.imprint id else .blank := by
  rw [beforeRun, imprint_foldl_fire_of_ne h, marked, imprint_markWaiting]
  exact imprint_kept

theorem mem_faults_choice_iff {f : Faulty} :
    f ∈ (e.choice nb).faults ↔ f ∈ (Plan.draft nb).faults ∧ f.node.id ∈ (e.survey nb).stale :=
  Choice.mem_faults_ofSurvey_iff

theorem consulted_eq (hV : nb.Valid) {x : Entry κ} (hx : x ∈ (Plan.draft nb).entries)
    (h : ∀ id, e.records.contains id = true ↔ id ∈ nb.codeIds) :
    e.consulted x.node = x.node.inputIds := by
  have hP := Plan.sound_draft hV
  refine List.filter_eq_self.mpr fun u hu => (h u).mpr ?_
  exact (Plan.mem_order_draft_iff hV).mp (hP.feeds_mem ((hP.mem_inputIds_iff hx).mp hu)).1

theorem mem_codeIds_of_mem_entries (hV : nb.Valid) {x : Entry κ}
    (hx : x ∈ (Plan.draft nb).entries) : x.id ∈ nb.codeIds :=
  (Plan.mem_order_draft_iff hV).mp (List.mem_map_of_mem hx)

theorem imprint_beforeRun_faulty (hV : nb.Valid) {f : Faulty} (hf : f ∈ (e.choice nb).faults) :
    (e.beforeRun nb).imprint f.node.id =
      .completed f.requested e.clock.advance.now f.node.inputIds (.threw f.fault) := by
  have hx : .faulty f ∈ (Plan.draft nb).entries :=
    Plan.mem_faults_iff.mp (mem_faults_choice_iff.mp hf).1
  have hcontains : (e.marked nb).records.contains f.node.id = true :=
    contains_marked.mpr (mem_codeIds_of_mem_entries hV hx)
  have hconsulted : (e.marked nb).consulted f.node = f.node.inputIds :=
    consulted_eq hV hx fun _ => contains_marked
  have hnodup : ((e.choice nb).faults.map fun f => f.node.id).Nodup :=
    Choice.nodup_faults_ofSurvey (Plan.sound_draft hV)
  rw [beforeRun, imprint_foldl_fire hnodup hf hcontains, now_marked, hconsulted]

/-! ## After the run -/

theorem mem_entries_of_runnable {r : Runnable κ} (hr : (e.choice nb).runnable = some r) :
    .runnable r ∈ (Plan.draft nb).entries :=
  Plan.mem_runnables_iff.mp (Choice.of_runnable_ofSurvey hr).1.1

theorem launch_beforeRun (runner : Runner κ ν) (hV : nb.Valid) {r : Runnable κ}
    (hr : (e.choice nb).runnable = some r) :
    ∃ request : Request κ ν, request.cell = r.node.id ∧ request.code = r.code ∧
      request.inputs = (e.beforeRun nb).inputsOf r.node ∧
      (e.tick runner nb).2.surroundings = ⟨e.settings, e.clock.advance, request :: e.requests⟩ ∧
      (e.tick runner nb).2.imprint r.node.id = .completed r.requested e.clock.advance.now
        r.node.inputIds (resultOf (runner request)) ∧
      (∀ j, j ≠ r.node.id → (e.tick runner nb).2.imprint j = (e.beforeRun nb).imprint j) ∧
      (e.tick runner nb).2.records.contains = (e.beforeRun nb).records.contains := by
  have hx := mem_entries_of_runnable hr
  have hcontains : (e.beforeRun nb).records.contains r.node.id = true :=
    contains_beforeRun.mpr (mem_codeIds_of_mem_entries hV hx)
  have hconsulted : (e.beforeRun nb).consulted r.node = r.node.inputIds :=
    consulted_eq hV hx fun _ => contains_beforeRun
  obtain ⟨request, hcell, hcode, hinputs, hsurroundings, hself, hother, hrecords⟩ :=
    launch_spec runner hcontains
  have hlaunch : (e.tick runner nb).2 = (e.beforeRun nb).launch runner r := by
    rw [snd_tick, launchChosen, hr]
  have hbefore : (e.beforeRun nb).surroundings = ⟨e.settings, e.clock.advance, e.requests⟩ :=
    surroundings_beforeRun
  simp only [surroundings, Surroundings.mk.injEq] at hbefore
  rw [hlaunch]
  refine ⟨request, hcell, hcode, hinputs, ?_, ?_, hother, hrecords⟩
  · rw [hsurroundings, hbefore.1, hbefore.2.1, hbefore.2.2]
  · rw [hself, now_beforeRun, hconsulted]

theorem snd_tick_of_none (h : (e.choice nb).runnable = none) :
    (e.tick runner nb).2 = e.beforeRun nb := by
  rw [snd_tick, launchChosen, h]

theorem contains_tick (runner : Runner κ ν) (hV : nb.Valid) :
    (e.tick runner nb).2.records.contains id = true ↔ id ∈ nb.codeIds := by
  cases hr : (e.choice nb).runnable with
  | none =>
    rw [snd_tick_of_none hr]
    exact contains_beforeRun
  | some r =>
    obtain ⟨_, _, _, _, _, _, _, hrecords⟩ := launch_beforeRun runner hV hr
    rw [hrecords]
    exact contains_beforeRun

theorem clock_tick (hV : nb.Valid) : (e.tick runner nb).2.clock = e.clock.advance := by
  cases hr : (e.choice nb).runnable with
  | none =>
    rw [snd_tick_of_none hr]
    exact congrArg Surroundings.clock surroundings_beforeRun
  | some r =>
    obtain ⟨_, _, _, _, hsurroundings, _⟩ := launch_beforeRun runner hV hr
    exact congrArg Surroundings.clock hsurroundings

theorem settings_tick (hV : nb.Valid) : (e.tick runner nb).2.settings = e.settings := by
  cases hr : (e.choice nb).runnable with
  | none =>
    rw [snd_tick_of_none hr]
    exact congrArg Surroundings.settings surroundings_beforeRun
  | some r =>
    obtain ⟨_, _, _, _, hsurroundings, _⟩ := launch_beforeRun runner hV hr
    exact congrArg Surroundings.settings hsurroundings

theorem ran_tick (hV : nb.Valid) :
    (e.tick runner nb).1.ran = (e.choice nb).runnable.map fun r => r.node.id := by
  have hran : (e.tick runner nb).1.ran = (e.beforeRun nb).launched (e.choice nb) := rfl
  rw [hran, launched]
  cases hr : (e.choice nb).runnable with
  | none => rfl
  | some r =>
    have hcontains : (e.beforeRun nb).records.contains r.node.id = true :=
      contains_beforeRun.mpr (mem_codeIds_of_mem_entries hV (mem_entries_of_runnable hr))
    rw [Option.map_some, Option.filter_some, if_pos hcontains]

theorem not_serves_iff : ¬ e.Serves nb id ↔ (∀ f ∈ (e.choice nb).faults, f.node.id ≠ id) ∧
    ∀ r, (e.choice nb).runnable = some r → r.node.id ≠ id := by
  simp only [Serves, not_or, not_exists, not_and, ne_eq]

theorem imprint_tick_of_ne (hV : nb.Valid)
    (h : ∀ r, (e.choice nb).runnable = some r → r.node.id ≠ id) :
    (e.tick runner nb).2.imprint id = (e.beforeRun nb).imprint id := by
  cases hr : (e.choice nb).runnable with
  | none => rw [snd_tick_of_none hr]
  | some r =>
    obtain ⟨_, _, _, _, _, _, hother, _⟩ := launch_beforeRun runner hV hr
    exact hother id (h r hr).symm

theorem imprint_tick_of_not_serves (hV : nb.Valid) (hid : id ∈ nb.codeIds)
    (h : ¬ e.Serves nb id) : (e.tick runner nb).2.imprint id = e.imprint id := by
  obtain ⟨hfaults, hrun⟩ := not_serves_iff.mp h
  rw [imprint_tick_of_ne hV hrun, imprint_beforeRun_of_ne hfaults, if_pos hid]

theorem mem_codeIds_of_serves (hV : nb.Valid) (h : e.Serves nb id) : id ∈ nb.codeIds := by
  rcases h with ⟨f, hf, rfl⟩ | ⟨r, hr, rfl⟩
  · exact mem_codeIds_of_mem_entries hV (Plan.mem_faults_iff.mp (mem_faults_choice_iff.mp hf).1)
  · exact mem_codeIds_of_mem_entries hV (mem_entries_of_runnable hr)

theorem imprint_tick_of_not_mem (hV : nb.Valid) (hid : id ∉ nb.codeIds) :
    (e.tick runner nb).2.imprint id = .blank :=
  imprint_of_not_contains (Bool.eq_false_iff.mpr fun h => hid ((contains_tick runner hV).mp h))

theorem exists_record_tick (runner : Runner κ ν) (hV : nb.Valid) {id : CellId}
    (hid : id ∈ nb.codeIds) :
    ∃ record, (e.tick runner nb).2.records.get? id = some record ∧
      (e.tick runner nb).2.imprint id = record.imprint := by
  obtain ⟨record, hrecord⟩ := Option.isSome_iff_exists.mp ((contains_tick runner hV).mpr hid)
  exact ⟨record, hrecord, imprint_of_get? hrecord⟩

theorem not_faulty_of_runnable (hV : nb.Valid) {r : Runnable κ}
    (hr : (e.choice nb).runnable = some r) {f : Faulty} (hf : f ∈ (e.choice nb).faults) :
    r.node.id ≠ f.node.id := by
  intro hid
  have hx := Plan.mem_faults_iff.mp (mem_faults_choice_iff.mp hf).1
  cases (Plan.sound_draft hV).eq_of_id_eq (mem_entries_of_runnable hr) hx hid

theorem imprint_tick_faulty (hV : nb.Valid) {f : Faulty} (hf : f ∈ (e.choice nb).faults) :
    (e.tick runner nb).2.imprint f.node.id =
      .completed f.requested e.clock.advance.now f.node.inputIds (.threw f.fault) := by
  rw [imprint_tick_of_ne hV fun r hr => not_faulty_of_runnable hV hr hf]
  exact imprint_beforeRun_faulty hV hf

/-- The chosen cell has the answer of the runner, for the inputs that its records show after the
tick. -/
theorem imprint_tick_runnable (runner : Runner κ ν) (hV : nb.Valid) {r : Runnable κ}
    (hr : (e.choice nb).runnable = some r) :
    ∃ request : Request κ ν, request.cell = r.node.id ∧ request.code = r.code ∧
      request.inputs = (e.tick runner nb).2.inputsOf r.node ∧
      (e.tick runner nb).2.requests = request :: e.requests ∧
      (e.tick runner nb).2.imprint r.node.id = .completed r.requested e.clock.advance.now
        r.node.inputIds (resultOf (runner request)) := by
  obtain ⟨request, hcell, hcode, hinputs, hsurroundings, hself, hother, _⟩ :=
    launch_beforeRun runner hV hr
  refine ⟨request, hcell, hcode, ?_, congrArg Surroundings.requests hsurroundings, hself⟩
  rw [hinputs]
  refine inputsOf_congr fun u hu => congrArg Record.exported (hother u ?_).symm
  rintro rfl
  have hP := Plan.sound_draft hV
  exact hP.acyclic r (Plan.mem_runnables_iff.mpr (mem_entries_of_runnable hr))
    (.single ((hP.mem_inputIds_iff (mem_entries_of_runnable hr)).mp hu))

theorem requests_tick_of_none (h : (e.choice nb).runnable = none) :
    (e.tick runner nb).2.requests = e.requests := by
  rw [snd_tick_of_none h]
  exact congrArg Surroundings.requests surroundings_beforeRun

/-- What a tick serves has answered its request, consulted its inputs, and run at the time of the
tick. -/
theorem served_spec (runner : Runner κ ν) (hV : nb.Valid) (h : e.Serves nb id) :
    ∃ x ∈ (Plan.draft nb).entries, x.id = id ∧ ∃ result,
      (e.tick runner nb).2.imprint id =
        .completed x.requested e.clock.advance.now x.node.inputIds result := by
  rcases h with ⟨f, hf, rfl⟩ | ⟨r, hr, rfl⟩
  · exact ⟨.faulty f, Plan.mem_faults_iff.mp (mem_faults_choice_iff.mp hf).1, rfl, _,
      imprint_tick_faulty hV hf⟩
  · obtain ⟨_, _, _, _, _, himprint⟩ := imprint_tick_runnable runner hV hr
    exact ⟨.runnable r, mem_entries_of_runnable hr, rfl, _, himprint⟩

end Engine

end Recalc
