import Recalc.CommandLine.Report
import Recalc.Proofs.Engine.Inputs
import Recalc.Proofs.Engine.Progress
import Recalc.Proofs.Engine.Results
import Recalc.Proofs.Engine.Tokens
import Recalc.Proofs.Literal

/-!
# Running and checking agree

A notebook file that is accepted holds a notebook that calls lead to, so everything that is true of
histories is true of a run of it. When the run settles, the results of its cells solve the equation of
the literal notebook (`World.result_eq_resultIn`): they are its outcomes. What `check` prints of a cell
can therefore be told from the result of a run, and conversely.
-/

namespace Recalc

open Relation
open scoped Time

/-! ## Notebooks of files -/

namespace NotebookFile

variable {nb nb' : Notebook LiteralCode}

theorem place_eq {c : FileCell} (h : place nb c = .ok nb') : nb' = nb.apply c.call := by
  rw [place] at h
  split at h <;> cases h
  rfl

theorem reachable_of_place {runner : Runner LiteralCode Json} {settings : Settings}
    {e : Engine LiteralCode Json} (cells : List FileCell)
    (hw : World.Reachable runner settings ⟨nb, e⟩) (h : cells.foldlM place nb = .ok nb') :
    World.Reachable runner settings ⟨nb', e⟩ := by
  induction cells generalizing nb with
  | nil =>
    cases h
    exact hw
  | cons c rest ih =>
    rw [List.foldlM_cons] at h
    cases hplace : place nb c with
    | error refusal =>
      rw [hplace] at h
      cases h
    | ok next =>
      rw [hplace] at h
      obtain rfl := place_eq hplace
      exact ih (.move (.call c.call) hw) h

theorem reachable_of_parse {text : String} (h : parse text = .ok nb)
    (runner : Runner LiteralCode Json) (settings : Settings) :
    World.Reachable runner settings ⟨nb, .start settings⟩ := by
  rw [parse] at h
  split at h
  · cases h
  · next cells _ =>
    split at h
    · cases h
    · next hcells =>
      cases h
      exact reachable_of_place cells .start hcells

end NotebookFile

/-! ## Results of runs -/

/-- Literal code as a function of the inputs, which is what it is while no run is cancelled. -/
def Literal.answer (_ : CellId) (code : LiteralCode) (inputs : Bindings Json) :
    Except String (Bindings Json) :=
  bindAll inputs ∅ code

theorem Literal.run_of_not_cancelled {q : Request LiteralCode Json} (h : q.cancelled = false) :
    run q = answer q.cell q.code q.inputs := by
  rw [run, h]
  rfl

namespace World

variable {settings : Settings} {w : World LiteralCode Json}

section Settled

variable (hw : Reachable (fun q => Literal.answer q.cell q.code q.inputs) settings w)
  (hsettled : w.Settled)

include hw hsettled

theorem result_of_faulty {f : Faulty} (hf : f ∈ (Plan.draft w.notebook).faults) :
    (w.engine.imprint f.node.id).result = .threw f.fault := by
  have hV := hw.consistent.valid
  obtain ⟨c, hc, source, hs, he⟩ := (Plan.mem_entries_iff hV).mp (Plan.mem_faults_iff.mp hf)
  have hid : f.node.id = c.id := (congrArg Entry.id he).trans (Plan.id_entryAt _ _ _)
  rw [hid, result_of_settled hw hsettled hc hs, ← he]
  rfl

/-- The inputs of a cell that can run are what its names stand for by the results of the others. -/
theorem inputsOf_eq_standsFor? {c : Cell LiteralCode} (hc : c ∈ w.notebook.codeCells)
    {p : Program LiteralCode} (hp : c.content.program? = some p) {r : Runnable LiteralCode}
    (hr : r ∈ (Plan.draft w.notebook).runnables) (hid : r.node.id = c.id) :
    (w.engine.inputsOf r.node).get? =
      w.notebook.standsFor? (fun id => (w.engine.imprint id).result) p := by
  have hshown (d : Cell LiteralCode) (name : Name) (v : Json) :
      (w.engine.imprint d.id).exported.get? name = some v ↔ name ≠ Name.default ∧
        ∃ bindings, (w.engine.imprint d.id).result.bindings? = some bindings ∧
          bindings.get? name = some v := by
    rw [hw.consistent.exported_eq]
    exact Result.get?_exported_iff
  funext name
  refine Option.ext fun v => ?_
  rw [get?_inputsOf_iff hw hsettled hc hr hid,
    Notebook.standsFor?_eq_some_iff hw.consistent.valid]
  constructor
  · rintro ⟨⟨q, hq, himports⟩, d, hd, hexp, hv⟩
    obtain rfl : p = q := Option.some.inj (hp.symm.trans hq)
    obtain ⟨hname, hrun, hsole⟩ := sole_source_of_settled hw hsettled hd hexp hv
    exact ⟨hname, himports, d, hd, hexp, hsole, hrun, ((hshown d name v).mp hv).2⟩
  · rintro ⟨hname, himports, d, hd, hexp, _, _, hbindings⟩
    exact ⟨⟨p, hp, himports⟩, d, hd, hexp, (hshown d name v).mpr ⟨hname, hbindings⟩⟩

/-- In a settled world the results solve the equation of the notebook. -/
theorem result_eq_resultIn {c : Cell LiteralCode} (hc : c ∈ w.notebook.codeCells) :
    (w.engine.imprint c.id).result =
      w.notebook.resultIn (fun id => (w.engine.imprint id).result) c := by
  have hV := hw.consistent.valid
  obtain ⟨source, hs⟩ := Plan.exists_source hc
  have hmem := (Plan.mem_entries_iff hV).mpr ⟨c, hc, source, hs, rfl⟩
  rw [result_of_settled hw hsettled hc hs]
  rcases Notebook.resultIn_cases hV hc hs with ⟨f, he, hthrew⟩ | ⟨p, rfl, he, hresult⟩
  · rw [he, hthrew]
    rfl
  · have hp : c.content.program? = some p := by
      rw [hs]
      rfl
    rw [he] at hmem ⊢
    rw [hresult, Engine.dictated, Literal.answer, Literal.bindAll_eq_denoteAll
      (inputsOf_eq_standsFor? hw hsettled hc hp (Plan.mem_runnables_iff.mpr hmem) rfl)]

end Settled

end World

/-! ## What `check` says -/

/-- The fault that kept a cell from running, if its result is one. -/
def Result.obstacle? {ν : Type} : Result ν → Option Fault
  | .returned _ => none
  | .threw (.runtime _) => none
  | .threw fault => some fault

theorem Engine.obstacle?_resultOf {ν : Type} (answer : Except String (Bindings ν)) :
    (resultOf answer).obstacle? = none := by
  cases answer <;> rfl

namespace Plan

variable {κ ν : Type} {nb : Notebook κ}

/-- No plan says that a cell throws when it runs. -/
theorem obstacle?_of_faultAt? {id : CellId} {source : Compilation κ} {fault : Fault}
    (h : faultAt? nb id source = some fault) :
    (Result.threw fault : Result ν).obstacle? = some fault := by
  cases source with
  | error message =>
    cases h
    rfl
  | ok p =>
    rw [faultAt?, fault?] at h
    split at h
    · cases h
      rfl
    · dsimp only at h
      split at h
      · cases h
        rfl
      · split at h <;> cases h
        rfl

theorem faulty?_entryAt (nb : Notebook κ) (c : Cell κ) (source : Compilation κ) :
    (entryAt nb c source).faulty?.map Faulty.fault = faultAt? nb c.id source := by
  rcases entryAt_eq nb c source with ⟨fault, hfault, he⟩ | ⟨p, _, hnone, he⟩
  · rw [he, hfault]
    rfl
  · rw [he, hnone]
    rfl

end Plan

theorem Notebook.obstacle?_outcome {nb : Notebook LiteralCode} (hV : nb.Valid)
    {c : Cell LiteralCode} (hc : c ∈ nb.codeCells) {source : Compilation LiteralCode}
    (hs : c.content = .code source) :
    (nb.outcome c.id).obstacle? = Plan.faultAt? nb c.id source := by
  rw [outcome_eq hV hc, ← Plan.faulty?_entryAt]
  rcases resultIn_cases hV hc hs with ⟨f, he, hthrew⟩ | ⟨p, _, he, hresult⟩
  · have hfault := Plan.faulty?_entryAt nb c source
    rw [he] at hfault
    rw [hthrew, he]
    exact Plan.obstacle?_of_faultAt? hfault.symm
  · rw [hresult, he]
    exact Engine.obstacle?_resultOf _

namespace Report

variable {nb : Notebook LiteralCode} {obstacle? : CellId → Option Fault}

def verdict (nb : Notebook LiteralCode) (id : CellId) : Option Fault → String
  | none => line ("  " ++ green "✓" ++ " " ++ id.display ++ " " ++ dim (describe nb id))
  | some fault => line ("  " ++ red "✗" ++ " " ++ id.display ++ " " ++ fault.message)

/-- What `check` prints if it is told why cells cannot run. -/
def checkBy (path : String) (nb : Notebook LiteralCode) (obstacle? : CellId → Option Fault) :
    Response :=
  let ids := (Plan.draft nb).order
  let broken := (ids.filter fun id => (obstacle? id).isSome).length
  if ids.isEmpty then .success (header "Checking" path ++ noCells)
  else
    let listing :=
      header "Checking" path ++ String.join (ids.map fun id => verdict nb id (obstacle? id)) ++
        line rule
    if broken > 0 then .failure listing s!"{broken} of {ids.length} cells cannot run"
    else .success (listing ++ line (green s!"All {ids.length} cells can run"))

theorem check_eq_checkBy (path : String)
    (h : ∀ x ∈ (Plan.draft nb).entries, obstacle? x.id = x.faulty?.map Faulty.fault) :
    check path nb = checkBy path nb obstacle? := by
  have hlines : (Plan.draft nb).entries.map (entryLine nb) =
      (Plan.draft nb).order.map fun id => verdict nb id (obstacle? id) := by
    rw [Plan.order, List.map_map]
    refine List.map_congr_left fun x hx => ?_
    rw [Function.comp_apply, h x hx]
    cases x <;> rfl
  have hbroken : (Plan.draft nb).faults.length =
      ((Plan.draft nb).order.filter fun id => (obstacle? id).isSome).length := by
    rw [Plan.faults, List.length_filterMap_eq_countP, Plan.order, List.filter_map, List.length_map,
      List.countP_eq_length_filter]
    refine congrArg List.length (List.filter_congr fun x hx => ?_)
    rw [Function.comp_apply, h x hx, Option.isSome_map]
  have hcount : (Plan.draft nb).entries.length = (Plan.draft nb).order.length :=
    (List.length_map _).symm
  have hempty : (Plan.draft nb).entries.isEmpty = (Plan.draft nb).order.isEmpty :=
    (List.isEmpty_map).symm
  rw [check, checkBy, hlines, hbroken, hcount, hempty]

theorem exit_checkBy (path : String) (nb : Notebook LiteralCode)
    (obstacle? : CellId → Option Fault) :
    (checkBy path nb obstacle?).exit = 0 ↔
      ∀ id ∈ (Plan.draft nb).order, obstacle? id = none := by
  rw [checkBy]
  split
  · next hempty =>
    rw [List.isEmpty_iff.mp hempty]
    exact iff_of_true rfl nofun
  · dsimp only
    split
    · next hbroken =>
      refine iff_of_false Nat.one_ne_zero fun hnone => ?_
      obtain ⟨id, hid⟩ := List.exists_mem_of_length_pos hbroken
      obtain ⟨hid, hsome⟩ := List.mem_filter.mp hid
      rw [hnone id hid] at hsome
      cases hsome
    · next hbroken =>
      refine iff_of_true rfl fun id hid => ?_
      have hnil := List.eq_nil_of_length_eq_zero (Nat.eq_zero_of_not_pos hbroken)
      have hnone := List.filter_eq_nil_iff.mp hnil id hid
      simpa using hnone

theorem record_of_settle {text : String} (hparse : NotebookFile.parse text = .ok nb)
    {settings : Settings} {patience ticks : Nat} {e : Engine LiteralCode Json}
    (hsettle : (Engine.start settings).settle Literal.run nb patience = (.settled ticks, e))
    {c : Cell LiteralCode} (hc : c ∈ nb.codeCells) :
    ∃ r, e.records.get? c.id = some r ∧ r.result = nb.outcome c.id := by
  have hstart := NotebookFile.reachable_of_parse hparse Literal.run settings
  obtain ⟨k, _, _, hsettled, he⟩ := World.settled_of_settleFrom hstart hsettle
  rw [World.afterTicks_succ] at he
  have hnotebook : (World.afterTicks Literal.run ⟨nb, .start settings⟩ k).notebook = nb :=
    World.notebook_afterTicks k
  have hw := hstart.afterTicks k
  generalize World.afterTicks Literal.run ⟨nb, .start settings⟩ k = w at *
  subst hnotebook he
  have hpure := hw.congr fun q hq => Literal.run_of_not_cancelled hq
  have hsolves : ∀ c ∈ w.notebook.codeCells, (w.engine.imprint c.id).result =
      w.notebook.resultIn (fun id => (w.engine.imprint id).result) c :=
    fun c hc => World.result_eq_resultIn hpure hsettled hc
  obtain ⟨r, hr, hresult, _⟩ := World.record_of_settled Literal.run hw.consistent
    hsettled (List.mem_map_of_mem hc)
  exact ⟨r, hr, hresult.trans (Notebook.outcome_unique hw.consistent.valid
    (fun id => (w.engine.imprint id).result) hsolves hc)⟩

/-- When a file is accepted and the run of its notebook settles, the results are the outcomes of the
notebook, which solve the equation of literal notebooks, and nothing else does. `check` prints what
those results tell of the cells: it marks the cells whose result is a fault other than a throw of
their run, with the message of the fault, and succeeds if and only if there is none. -/
theorem check_agrees_with_run (text : String) (nb : Notebook LiteralCode)
    (hparse : NotebookFile.parse text = .ok nb) (settings : Settings) (patience ticks : Nat)
    (e : Engine LiteralCode Json)
    (hsettle : (Engine.start settings).settle Literal.run nb patience = (.settled ticks, e))
    (path : String) :
    let obstacle? (id : CellId) := (e.records.get? id).bind fun r => r.result.obstacle?
    (∀ c ∈ nb.codeCells, ∃ r, e.records.get? c.id = some r ∧ r.result = nb.outcome c.id) ∧
      (∀ c ∈ nb.codeCells, nb.outcome c.id = nb.resultIn nb.outcome c) ∧
      (∀ results : CellId → Result Json,
        (∀ c ∈ nb.codeCells, results c.id = nb.resultIn results c) →
          ∀ c ∈ nb.codeCells, results c.id = nb.outcome c.id) ∧
      (∀ c ∈ nb.codeCells, ∀ fault, obstacle? c.id = some fault ↔
        ∃ f ∈ (Plan.draft nb).faults, f.node.id = c.id ∧ f.fault = fault) ∧
      check path nb = checkBy path nb obstacle? ∧
      ((check path nb).exit = 0 ↔ ∀ c ∈ nb.codeCells, obstacle? c.id = none) := by
  intro obstacle?
  have hV := (NotebookFile.reachable_of_parse hparse Literal.run settings).consistent.valid
  have hrecord (c : Cell LiteralCode) (hc : c ∈ nb.codeCells) :=
    record_of_settle hparse hsettle hc
  have hobstacle {c : Cell LiteralCode} {source : Compilation LiteralCode} (hc : c ∈ nb.codeCells)
      (hs : c.content = .code source) : obstacle? c.id = Plan.faultAt? nb c.id source := by
    obtain ⟨r, hr, hresult⟩ := hrecord c hc
    rw [← Notebook.obstacle?_outcome hV hc hs, ← hresult]
    exact congrArg (Option.bind · _) hr
  have hcheck : check path nb = checkBy path nb obstacle? := by
    refine check_eq_checkBy path fun x hx => ?_
    obtain ⟨c, hc, source, hs, rfl⟩ := (Plan.mem_entries_iff hV).mp hx
    rw [Plan.id_entryAt, hobstacle hc hs, Plan.faulty?_entryAt]
  refine ⟨hrecord, fun c hc => Notebook.outcome_eq hV hc,
    fun results h c hc => Notebook.outcome_unique hV results h hc, fun c hc fault => ?_, hcheck, ?_⟩
  · obtain ⟨source, hs⟩ := Plan.exists_source hc
    rw [hobstacle hc hs]
    exact (Plan.hasFault_iff hV hc hs).symm
  · rw [hcheck, exit_checkBy]
    constructor
    · exact fun h c hc => h c.id ((Plan.mem_order_draft_iff hV).mpr (List.mem_map_of_mem hc))
    · intro h id hid
      obtain ⟨c, hc, rfl⟩ := List.mem_map.mp ((Plan.mem_order_draft_iff hV).mp hid)
      exact h c hc

/-- A cell with a value, one that reads it and throws, and one without a program. -/
def sampleFile : String :=
  "\x7b\"cells\":[" ++
    "\x7b\"kind\":\"code\",\"exports\":\x7b\"a\":1\x7d\x7d," ++
    "\x7b\"kind\":\"code\",\"imports\":[\"a\"],\"exports\":\x7b\"b\":\"$a\",\"c\":\"$d\"\x7d\x7d," ++
    "\x7b\"kind\":\"code\",\"error\":\"oops\"\x7d]\x7d"

def sampleNotebook : Notebook LiteralCode :=
  (NotebookFile.parse sampleFile).toOption.getD .empty

def sampleRun : Settling × Engine LiteralCode Json :=
  (Engine.start .standard).settle Literal.run sampleNotebook 4

theorem check_agrees_with_run_sample :
    NotebookFile.parse sampleFile = .ok sampleNotebook ∧ sampleRun.1 = .settled 2 ∧
      (sampleNotebook.codeIds.map fun id => (sampleNotebook.outcome id).fault?) =
        [none, some (.runtime "d is not defined"), some (.compile "oops")] ∧
      (∀ c ∈ sampleNotebook.codeCells, ∃ r, sampleRun.2.records.get? c.id = some r ∧
        r.result = sampleNotebook.outcome c.id) ∧
      (check "sample.json" sampleNotebook).exit ≠ 0 := by
  have hfacts : (NotebookFile.parse sampleFile).toOption.isSome = true ∧
      sampleRun.1 = .settled 2 ∧
      (sampleNotebook.codeIds.map fun id => (sampleNotebook.outcome id).fault?) =
        [none, some (.runtime "d is not defined"), some (.compile "oops")] ∧
      (check "sample.json" sampleNotebook).exit ≠ 0 := by
    decide +kernel
  obtain ⟨hsome, hticks, houtcomes, hexit⟩ := hfacts
  have hparse : NotebookFile.parse sampleFile = .ok sampleNotebook := by
    rw [sampleNotebook]
    cases h : NotebookFile.parse sampleFile with
    | ok _ => rfl
    | error _ =>
      rw [h] at hsome
      cases hsome
  have hsettle : sampleRun = (.settled 2, sampleRun.2) :=
    Prod.mk.eta.symm.trans (congrArg (·, sampleRun.2) hticks)
  have hagree := check_agrees_with_run sampleFile sampleNotebook hparse .standard 4 2 sampleRun.2
    hsettle "sample.json"
  exact ⟨hparse, hticks, houtcomes, hagree.1, hexit⟩

end Report

end Recalc
