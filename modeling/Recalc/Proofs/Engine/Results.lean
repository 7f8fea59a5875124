import Recalc.Proofs.Engine.Inputs

/-!
# Results are those of a fresh run

When a tick finds nothing stale, the record of every code cell is what the notebook of that moment
dictates: its fault, or the answer of the runner to its code and to its inputs, where a name that the
cell imports has the value in the record of the cell that exports it (`Engine.Dictates`). So the results
of a settled engine depend on the code cells alone, and not on the history that led to them.

The last run of a cell may lie far back. What has fed the cell since has not run later, so none of it
has been touched since that run (`ancestor_unchanged`), and the fault of the cell, which depends on
the cells around it, is the fault that it had then (`faultAt?_last_run`).
-/

namespace Recalc

open Relation
open scoped Time

variable {κ ν : Type}

/-- A record holds an answer of the runner. It exports all bindings that were returned but the one for
display, and none after a throw. -/
def Record.Holds (record : Record ν) : Except String (Bindings ν) → Prop
  | .ok bindings => record.result = .returned (some bindings) ∧ ∀ name,
    record.exported.get? name = if name = Name.default then none else bindings.get? name
  | .error message => record.result = .threw (.runtime message) ∧ ∀ name,
    record.exported.get? name = none

theorem Record.holds_of_resultOf {record : Record ν} {answer : Except String (Bindings ν)}
    (hresult : record.result = Engine.resultOf answer)
    (hexported : record.exported = (Engine.resultOf answer).exported) : record.Holds answer := by
  cases answer with
  | error message => exact ⟨hresult, fun name => hexported ▸ rfl⟩
  | ok bindings =>
    refine ⟨hresult, fun name => ?_⟩
    rw [hexported, Engine.resultOf, Result.exported]
    dsimp only [Result.bindings?]
    rw [Table.get?, Table.filter, Table.valueAt?_filter fun key => key != Name.default]
    simp only [bne_iff_ne, ne_eq, ite_not]
    rfl

namespace Engine

/-- What an entry of a plan is to show while the other cells show what they do. -/
def dictated (f : CellId → κ → Bindings ν → Except String (Bindings ν)) (e : Engine κ ν) :
    Entry κ → Result ν
  | .runnable r => resultOf (f r.node.id r.code (e.inputsOf r.node))
  | .faulty x => .threw x.fault

/-- A name stands for a value in a cell: the cell imports the name, and the record of a code cell that
exports it holds the value. -/
def StandsFor (e : Engine κ ν) (nb : Notebook κ) (c : Cell κ) (name : Name) (value : ν) : Prop :=
  c.Imports name ∧ ∃ d ∈ nb.codeCells, d.Exports name ∧
    ∃ record, e.records.get? d.id = some record ∧ record.exported.get? name = some value

/-- What the record of a code cell is to hold while the other records are as they are: the fault of the
cell, or else the answer of the runner to its code and to what its imports stand for. -/
inductive Dictates (f : CellId → κ → Bindings ν → Except String (Bindings ν)) (e : Engine κ ν)
    (nb : Notebook κ) (c : Cell κ) (record : Record ν) : Prop
  | fault {x : Faulty} : x ∈ (Plan.draft nb).faults → x.node.id = c.id →
    record.result = .threw x.fault → (∀ name, record.exported.get? name = none) →
    Dictates f e nb c record
  | answer {p : Program κ} {inputs : Bindings ν} : (Plan.draft nb).CanRun c.id →
    c.content = .code (.ok p) →
    (∀ name value, inputs.get? name = some value ↔ e.StandsFor nb c name value) →
    record.Holds (f c.id p.code inputs) → Dictates f e nb c record

end Engine

namespace World

variable {runner : Runner κ ν} {settings : Settings} {w w₀ : World κ ν} {c : Cell κ}

/-- After a tick a cell on a cycle has consulted the inputs that it had at the tick. -/
theorem consulted_tick_of_cyclic (hw₀ : Reachable runner settings w₀) {v : CellId}
    (hcycle : TransGen (Plan.graphOf w₀.notebook).Feeds v v) :
    ((w₀.move runner .tick).engine.imprint v).consulted =
      (Plan.graphOf w₀.notebook).sources v := by
  have hV := hw₀.consistent.valid
  by_cases hstale : v ∈ (w₀.engine.survey w₀.notebook).stale
  · exact (quiet_tick_of_serves runner hw₀.consistent
      (Engine.serves_of_cyclic hV hstale hcycle)).consulted
  · obtain ⟨x, hf, _⟩ := TransGen.head'_iff.mp hcycle
    obtain ⟨d, hd, rfl⟩ := List.mem_map.mp (mem_codeIds_of_feeds hV hf).1
    rw [imprint_tick_of_not_serves runner hw₀.consistent (List.mem_map_of_mem hd) fun hserves =>
      hstale (Engine.mem_stale_of_serves hV hserves)]
    exact (quiet_of_not_stale hw₀ hd hstale).consulted

section Settled

variable (hw : Reachable runner settings w) (hsettled : w.Settled)

include hw hsettled

theorem quiet_of_settled (hc : c ∈ w.notebook.codeCells) :
    Survey.Quiet (Plan.draft w.notebook) w.engine.imprint c.id :=
  quiet_of_not_stale hw hc (hsettled ▸ List.not_mem_nil)

theorem answered_of_settled (hc : c ∈ w.notebook.codeCells) :
    c.requested ≤ (w.engine.imprint c.id).answered :=
  (Engine.answered_of_not_stale hw.consistent.valid hc (computed_ne_latest hw.consistent c.id)
    (hsettled ▸ List.not_mem_nil)).1

theorem computed_le_of_reach {u v : CellId}
    (hreach : ReflTransGen (Plan.graphOf w.notebook).Feeds u v) :
    (w.engine.imprint u).computed ≤ (w.engine.imprint v).computed := by
  induction hreach with
  | refl => exact le_rfl
  | tail _ hf ih =>
    obtain ⟨c, hc, rfl⟩ := List.mem_map.mp (mem_codeIds_of_feeds hw.consistent.valid hf).2
    exact le_trans ih ((quiet_of_settled hw hsettled hc).computed _ hf)

theorem ancestor_unchanged (hc : c ∈ w.notebook.codeCells)
    (hlast : LastRun runner settings w₀ w c.id) {u : CellId}
    (hreach : ReflTransGen (Plan.graphOf w.notebook).Feeds u c.id) :
    u ∈ Notebook.unchangedIds w₀.notebook w.notebook ∧
      w.engine.imprint u = (w₀.move runner .tick).engine.imprint u := by
  obtain ⟨d, hd, rfl⟩ := List.mem_map.mp
    (mem_codeIds_of_reach hw.consistent.valid (List.mem_map_of_mem hc) hreach)
  refine mem_unchangedIds hlast.reachable.consistent hlast.later hd
    (answered_of_settled hw hsettled hd) ?_
  rw [← hlast.computed_eq]
  exact computed_le_of_reach hw hsettled hreach

theorem decide_ancestor_unchanged (hc : c ∈ w.notebook.codeCells)
    (hlast : LastRun runner settings w₀ w c.id) (u : CellId)
    (hreach : ReflTransGen (Plan.graphOf w.notebook).Feeds u c.id) :
    decide (u ∈ Notebook.unchangedIds w₀.notebook w.notebook) = true :=
  decide_eq_true (ancestor_unchanged hw hsettled hc hlast hreach).1

theorem feeds_of_last_run (hc : c ∈ w.notebook.codeCells)
    (hlast : LastRun runner settings w₀ w c.id) {u : CellId}
    (hu : (Plan.graphOf w₀.notebook).Feeds u c.id) : (Plan.graphOf w.notebook).Feeds u c.id := by
  have hsources : (Plan.graphOf w₀.notebook).sources c.id =
      (Plan.graphOf w.notebook).sources c.id :=
    hlast.consulted_eq.symm.trans (quiet_of_settled hw hsettled hc).consulted
  exact Graph.mem_sources_iff.mp (hsources ▸ Graph.mem_sources_iff.mpr hu)

/-- A walk that fed the cell at its last run, along a cycle through the cell, feeds it now. -/
theorem reach_of_last_run (hc : c ∈ w.notebook.codeCells)
    (hlast : LastRun runner settings w₀ w c.id) {z : CellId}
    (hto : ReflTransGen (Plan.graphOf w₀.notebook).Feeds z c.id)
    (hfrom : ReflTransGen (Plan.graphOf w₀.notebook).Feeds c.id z) :
    ReflTransGen (Plan.graphOf w.notebook).Feeds z c.id := by
  induction hto using ReflTransGen.head_induction_on with
  | refl => exact .refl
  | @head z y hzy hy ih =>
    have hcy : ReflTransGen (Plan.graphOf w₀.notebook).Feeds c.id y := hfrom.tail hzy
    have hreach := ih hcy
    obtain ⟨d, hd, rfl⟩ := List.mem_map.mp
      (mem_codeIds_of_reach hw.consistent.valid (List.mem_map_of_mem hc) hreach)
    have hcycle : TransGen (Plan.graphOf w₀.notebook).Feeds d.id d.id :=
      .tail' (hy.trans hfrom) hzy
    have hconsulted := consulted_tick_of_cyclic hlast.reachable hcycle
    rw [← (ancestor_unchanged hw hsettled hc hlast hreach).2,
      (quiet_of_settled hw hsettled hd).consulted] at hconsulted
    refine .head (Graph.mem_sources_iff.mp ?_) hreach
    exact hconsulted ▸ Graph.mem_sources_iff.mpr hzy

theorem faultAt?_last_run (hc : c ∈ w.notebook.codeCells)
    (hlast : LastRun runner settings w₀ w c.id) (source : Compilation κ) :
    Plan.faultAt? w.notebook c.id source = Plan.faultAt? w₀.notebook c.id source := by
  have hkeep := decide_ancestor_unchanged hw hsettled hc hlast
  refine Plan.faultAt?_eq_of_filter _ (hlast.later.filter_unchanged hlast.reachable.consistent)
    (hkeep c.id .refl) (fun u hu => hkeep u (.single hu)) (fun u hu => hkeep u hu.2)
    (fun u hu => hkeep u (.single ?_)) (fun u hu => hkeep u ?_) source
  · exact feeds_of_last_run hw hsettled hc hlast hu
  · exact reach_of_last_run hw hsettled hc hlast hu.2 hu.1

theorem inputs_last_run (hc : c ∈ w.notebook.codeCells)
    (hlast : LastRun runner settings w₀ w c.id) :
    (Plan.graphOf w.notebook).inputs c.id = (Plan.graphOf w₀.notebook).inputs c.id := by
  have hkeep := decide_ancestor_unchanged hw hsettled hc hlast
  refine Plan.inputs_eq_of_filter _ (hlast.later.filter_unchanged hlast.reachable.consistent)
    (hkeep c.id .refl) (fun u hu => hkeep u (.single hu)) fun u hu => hkeep u (.single ?_)
  exact feeds_of_last_run hw hsettled hc hlast hu

theorem mem_codeCells_last_run (hc : c ∈ w.notebook.codeCells)
    (hlast : LastRun runner settings w₀ w c.id) : c ∈ w₀.notebook.codeCells :=
  (Later.continues hlast.later).mem_past_of_unchanged hw.consistent.valid hc
    (ancestor_unchanged hw hsettled hc hlast .refl).1

end Settled

/-- In a settled world every code cell shows what the notebook dictates. -/
theorem result_of_settled {f : CellId → κ → Bindings ν → Except String (Bindings ν)}
    (hw : Reachable (fun q => f q.cell q.code q.inputs) settings w) (hsettled : w.Settled)
    {source : Compilation κ} (hc : c ∈ w.notebook.codeCells) (hs : c.content = .code source) :
    (w.engine.imprint c.id).result =
      w.engine.dictated f (Plan.entryAt w.notebook c source) := by
  have hV := hw.consistent.valid
  obtain ⟨w₀, hlast⟩ := exists_last_run hw
    (ne_blank_of_requested hV hc (answered_of_settled hw hsettled hc))
  have hV₀ := hlast.reachable.consistent.valid
  have hc₀ := mem_codeCells_last_run hw hsettled hc hlast
  have hfault := faultAt?_last_run hw hsettled hc hlast source
  -- the last run fired a fault or asked the runner, and the plan of today says the same
  rcases hlast.serves with ⟨x, hx, hid⟩ | ⟨r, hr, hid⟩
  · have hthen : Plan.faultAt? w₀.notebook c.id source = some x.fault :=
      (Plan.hasFault_iff hV₀ hc₀ hs).mp ⟨x, (Engine.mem_faults_choice_iff.mp hx).1, hid, rfl⟩
    have himprint := hlast.imprint_eq.trans (hid ▸ Engine.imprint_tick_faulty hV₀ hx)
    rcases Plan.entryAt_eq w.notebook c source with ⟨fault, hnow, he⟩ | ⟨_, _, hnone, _⟩
    · rw [hfault, hthen] at hnow
      rw [himprint, he, ← Option.some.inj hnow]
      rfl
    · rw [hfault, hthen] at hnone
      cases hnone
  · obtain ⟨d, hd, p, hd_source, hnone, hrd⟩ := (Plan.mem_runnables_draft_iff hV₀).mp
      (Plan.mem_runnables_iff.mpr (Engine.mem_entries_of_runnable hr))
    have hdc : d = c := by
      refine hV₀.eq_of_id_eq hd hc₀ ?_
      rw [← hid, hrd]
      rfl
    subst hdc
    rw [hs, Content.code.injEq] at hd_source
    subst hd_source
    obtain ⟨request, hcell, hcode, hinputs, _, hspec⟩ :=
      Engine.imprint_tick_runnable (fun q => f q.cell q.code q.inputs) hV₀ hr
    have himprint := hlast.imprint_eq.trans (hid ▸ hspec)
    rcases Plan.entryAt_eq w.notebook d (.ok p) with ⟨fault, hnow, _⟩ | ⟨p', hp, _, he⟩
    · rw [hfault, hnone] at hnow
      cases hnow
    · cases hp
      have hnode : r.node.inputs = ((Plan.graphOf w.notebook).node d.id).inputs := by
        rw [hrd]
        exact (inputs_last_run hw hsettled hc hlast).symm
      have hgiven : request.inputs = w.engine.inputsOf ((Plan.graphOf w.notebook).node d.id) := by
        rw [hinputs, ← Engine.inputsOf_eq_of_inputs hnode]
        refine Engine.inputsOf_congr fun u hu => congrArg Record.exported ?_
        rw [hrd] at hu
        have hfeeds := feeds_of_last_run hw hsettled hc hlast (Graph.mem_sources_iff.mp hu)
        exact (ancestor_unchanged hw hsettled hc hlast (.single hfeeds)).2.symm
      rw [himprint, he, Engine.dictated, ← hgiven]
      rw [hcell, hcode, hrd]
      rfl

/-! ## Two histories -/

/-- The code cells without the times of their requests. -/
def contents (w : World κ ν) : List (CellId × Content κ) :=
  w.notebook.codeCells.map fun c => (c.id, c.content)

section Contents

variable {w' : World κ ν} (hcontents : w.contents = w'.contents)

include hcontents

theorem graphOf_eq_of_contents : Plan.graphOf w.notebook = Plan.graphOf w'.notebook := by
  have hinterfaces : ∀ w : World κ ν, w.notebook.codeCells.map Cell.interface =
      w.contents.map fun p => Cell.interface ⟨p.1, p.2, .earliest⟩ := by
    intro w
    rw [contents, List.map_map]
    rfl
  rw [Plan.graphOf, Plan.graphOf, hinterfaces w, hinterfaces w', hcontents]

theorem exists_cell_of_contents (hc : c ∈ w.notebook.codeCells) :
    ∃ d ∈ w'.notebook.codeCells, d.id = c.id ∧ d.content = c.content := by
  have hmem : (c.id, c.content) ∈ w'.contents := hcontents ▸ List.mem_map.mpr ⟨c, hc, rfl⟩
  obtain ⟨d, hd, heq⟩ := List.mem_map.mp hmem
  exact ⟨d, hd, congrArg Prod.fst heq, congrArg Prod.snd heq⟩

theorem faultAt?_eq_of_contents (id : CellId) (source : Compilation κ) :
    Plan.faultAt? w.notebook id source = Plan.faultAt? w'.notebook id source := by
  cases source with
  | error message => rfl
  | ok p => rw [Plan.faultAt?, Plan.faultAt?, graphOf_eq_of_contents hcontents]

/-- Results agree along the plan: what a cell reads stands before it. -/
theorem result_eq_of_contents {f : CellId → κ → Bindings ν → Except String (Bindings ν)}
    {settings' : Settings} (hw : Reachable (fun q => f q.cell q.code q.inputs) settings w)
    (hw' : Reachable (fun q => f q.cell q.code q.inputs) settings' w')
    (hsettled : w.Settled) (hsettled' : w'.Settled) (before after : List (Entry κ))
    (hplan : (Plan.draft w.notebook).entries = before ++ after) :
    ∀ x ∈ before, (w.engine.imprint x.id).result = (w'.engine.imprint x.id).result := by
  have hV := hw.consistent.valid
  -- on the part of the plan that has been gone through
  induction before using List.reverseRecOn generalizing after with
  | nil => exact fun _ hx => absurd hx List.not_mem_nil
  | append_singleton before x ih =>
    have hrest : (Plan.draft w.notebook).entries = before ++ x :: after := by
      rw [hplan, List.append_assoc, List.singleton_append]
    have hbefore := ih (x :: after) hrest
    intro y hy
    rcases List.mem_append.mp hy with hy | hy
    · exact hbefore y hy
    rw [List.mem_singleton.mp hy]
    obtain ⟨c, hc, source, hs, rfl⟩ :=
      (Plan.mem_entries_iff hV).mp (hrest ▸ (by simp : x ∈ before ++ x :: after))
    obtain ⟨d, hd, hid, hcontent⟩ := exists_cell_of_contents hcontents hc
    have hresult := result_of_settled hw hsettled hc hs
    have hresult' := result_of_settled hw' hsettled' hd (hcontent.trans hs)
    rw [hid] at hresult'
    rw [Plan.id_entryAt, hresult, hresult']
    have hfault := faultAt?_eq_of_contents hcontents c.id source
    rcases Plan.entryAt_eq w.notebook c source with ⟨fault, hsome, he⟩ | ⟨p, hp, hnone, he⟩ <;>
      rcases Plan.entryAt_eq w'.notebook d source with
        ⟨fault', hsome', he'⟩ | ⟨p', hp', hnone', he'⟩
    · rw [hid, ← hfault, hsome] at hsome'
      rw [he, he', Option.some.inj hsome']
      rfl
    · rw [hid, ← hfault, hsome] at hnone'
      cases hnone'
    · rw [hid, ← hfault, hnone] at hsome'
      cases hsome'
    · subst hp
      cases hp'
      rw [he, he', Engine.dictated, Engine.dictated, hid, ← graphOf_eq_of_contents hcontents]
      congr 2
      refine Engine.inputsOf_congr fun u hu => ?_
      rw [he] at hrest
      obtain ⟨z, hz, rfl⟩ :=
        (Plan.sound_draft hV).mem_before hrest (.single (Graph.mem_sources_iff.mp hu))
      rw [hw.consistent.exported_eq, hw'.consistent.exported_eq, hbefore z hz]

end Contents

theorem record_of_settled (runner : Runner κ ν) (hw : w.Consistent) (hsettled : w.Settled)
    {id : CellId} (hid : id ∈ w.notebook.codeIds) :
    ∃ record, (w.move runner .tick).engine.records.get? id = some record ∧
      record.result = (w.engine.imprint id).result ∧
        record.exported = (w.engine.imprint id).result.exported := by
  obtain ⟨record, hrecord, himprint⟩ := Engine.exists_record_tick runner hw.valid hid
  have hsame : record.imprint = w.engine.imprint id :=
    himprint.symm.trans (imprint_tick_of_settled runner hw hsettled hid)
  have hresult := congrArg Record.result hsame
  have hexported := congrArg Record.exported hsame
  exact ⟨record, hrecord, hresult, hexported.trans (hw.exported_eq id)⟩

theorem standsFor_tick_iff_of_settled (runner : Runner κ ν) (hw : w.Consistent)
    (hsettled : w.Settled) {name : Name} {value : ν} :
    (w.move runner .tick).engine.StandsFor w.notebook c name value ↔ c.Imports name ∧
      ∃ d ∈ w.notebook.codeCells, d.Exports name ∧
        (w.engine.imprint d.id).exported.get? name = some value := by
  refine and_congr_right fun _ => exists_congr fun d => and_congr_right fun hd =>
    and_congr_right fun _ => ?_
  obtain ⟨record, hrecord, _, hexported⟩ :=
    record_of_settled runner hw hsettled (List.mem_map_of_mem hd)
  rw [← hw.exported_eq] at hexported
  rw [hrecord, ← hexported]
  simp

/-- After a tick that finds nothing stale, the record of a code cell is what the notebook dictates. -/
theorem dictates_of_settled {f : CellId → κ → Bindings ν → Except String (Bindings ν)}
    (hw : Reachable (fun q => f q.cell q.code q.inputs) settings w) (hsettled : w.Settled)
    (hc : c ∈ w.notebook.codeCells) {record : Record ν}
    (hresult : record.result = (w.engine.imprint c.id).result)
    (hexported : record.exported = (w.engine.imprint c.id).result.exported) :
    (w.move (fun q => f q.cell q.code q.inputs) .tick).engine.Dictates f w.notebook c record := by
  have hV := hw.consistent.valid
  obtain ⟨source, hs⟩ := Plan.exists_source hc
  have hmem := (Plan.mem_entries_iff hV).mpr ⟨c, hc, source, hs, rfl⟩
  rw [result_of_settled hw hsettled hc hs] at hresult hexported
  rcases Plan.entryAt_eq w.notebook c source with ⟨fault, _, he⟩ | ⟨p, rfl, hnone, he⟩
  · rw [he] at hmem hresult hexported
    refine .fault (Plan.mem_faults_iff.mpr hmem) rfl hresult fun name => ?_
    rw [hexported]
    rfl
  · rw [he] at hmem hresult hexported
    have hrun := (Plan.canRun_iff hV hc hs).mpr hnone
    refine .answer hrun hs (fun name value => ?_) (Record.holds_of_resultOf hresult hexported)
    rw [standsFor_tick_iff_of_settled _ hw.consistent hsettled]
    exact get?_inputsOf_iff hw hsettled hc (Plan.mem_runnables_iff.mpr hmem) rfl

/-- Incremental results are those of a fresh run. After any history, when a tick finds nothing stale,
the record of every code cell is what the notebook dictates; two engines that have come to rest on the
same code cells hold the same results and values, whatever led there. -/
theorem results_after_settling (f : CellId → κ → Bindings ν → Except String (Bindings ν))
    (settings settings' : Settings) (moves moves' : List (Move κ)) :
    let runner : Runner κ ν := fun q => f q.cell q.code q.inputs
    let w := (start settings).play runner moves
    let w' := (start settings').play runner moves'
    let e := (w.engine.tick runner w.notebook).2
    let e' := (w'.engine.tick runner w'.notebook).2
    (w.engine.tick runner w.notebook).1.isSettled = true →
      (∀ c ∈ w.notebook.codeCells, ∃ record, e.records.get? c.id = some record ∧
        e.Dictates f w.notebook c record) ∧
      ((w'.engine.tick runner w'.notebook).1.isSettled = true → w.contents = w'.contents →
        ∀ id ∈ w.notebook.codeIds, ∃ record record', e.records.get? id = some record ∧
          e'.records.get? id = some record' ∧ record.result = record'.result ∧
          record.exported = record'.exported) := by
  intro runner w w' e e' htick
  have hw : Reachable runner settings w := reachable_iff_play.mpr ⟨moves, rfl⟩
  have hw' : Reachable runner settings' w' := reachable_iff_play.mpr ⟨moves', rfl⟩
  have hsettled : w.Settled := isSettled_tick_iff.mp htick
  have hV := hw.consistent.valid
  constructor
  · intro c hc
    obtain ⟨record, hrecord, hresult, hexported⟩ :=
      record_of_settled runner hw.consistent hsettled (List.mem_map_of_mem hc)
    exact ⟨record, hrecord, dictates_of_settled hw hsettled hc hresult hexported⟩
  · intro htick' hcontents id hid
    have hsettled' : w'.Settled := isSettled_tick_iff.mp htick'
    obtain ⟨x, hx, rfl⟩ := Plan.mem_order_iff.mp ((Plan.mem_order_draft_iff hV).mpr hid)
    have hsame := result_eq_of_contents hcontents hw hw' hsettled hsettled' _ []
      (List.append_nil _).symm x hx
    obtain ⟨c, hc, hcid⟩ := List.mem_map.mp hid
    obtain ⟨d, hd, hdid, _⟩ := exists_cell_of_contents hcontents hc
    obtain ⟨record, hrecord, hresult, hexported⟩ :=
      record_of_settled runner hw.consistent hsettled hid
    obtain ⟨record', hrecord', hresult', hexported'⟩ :=
      record_of_settled runner hw'.consistent hsettled' (List.mem_map.mpr ⟨d, hd, hdid.trans hcid⟩)
    rw [hsame] at hresult hexported
    exact ⟨record, record', hrecord, hrecord', hresult.trans hresult'.symm,
      hexported.trans hexported'.symm⟩

/-- One engine meets the cells at once, the other after it has run another first cell. In both the second
cell has been given 5 for `a`, and exports what it returned but for `default`. -/
theorem results_after_settling_pair :
    let answer : CellId → Nat → Bindings Nat → Except String (Bindings Nat) := fun _ code inputs =>
      .ok (Table.ofList [("a", code), ("b", code + (inputs.get? "a").getD 0), ("default", 0)])
    let runner : Runner Nat Nat := fun q => answer q.cell q.code q.inputs
    let edit : List (Move Nat) := [.call (.updateCode ⟨0⟩ (pairSource [] ["a"] 5)), .tick, .tick]
    let w := (start Settings.standard).play runner (pairMoves 5)
    let w' := (start Settings.standard).play runner (pairMoves 7 ++ edit)
    let e := (w.engine.tick runner w.notebook).2
    let e' := (w'.engine.tick runner w'.notebook).2
    let c : Cell Nat := ⟨⟨1⟩, .code (pairSource ["a"] ["b"] 10), .tick 2⟩
    (w.engine.tick runner w.notebook).1.isSettled = true ∧
      (w'.engine.tick runner w'.notebook).1.isSettled = true ∧ w.contents = w'.contents ∧
      e.StandsFor w.notebook c "a" 5 ∧
      ∃ record record', e.records.get? ⟨1⟩ = some record ∧ e'.records.get? ⟨1⟩ = some record' ∧
        e.Dictates answer w.notebook c record ∧
        record.result = .returned (some (Table.ofList [("a", 10), ("b", 15), ("default", 0)])) ∧
        record.exported = Table.ofList [("a", 10), ("b", 15)] ∧
        record'.result = record.result ∧ record'.exported = record.exported := by
  intro answer runner edit w w' e e' c
  have hsettled : (w.engine.tick runner w.notebook).1.isSettled = true := by decide +kernel
  have hsettled' : (w'.engine.tick runner w'.notebook).1.isSettled = true := by decide +kernel
  have hcontents : w.contents = w'.contents := rfl
  have hcells : w.notebook.codeCells = [⟨⟨0⟩, .code (pairSource [] ["a"] 5), .tick 1⟩, c] := rfl
  have hshown : (e.records.get? ⟨1⟩).map (fun r => (r.result, r.exported)) =
      some (.returned (some (Table.ofList [("a", 10), ("b", 15), ("default", 0)])),
        Table.ofList [("a", 10), ("b", 15)]) := by decide +kernel
  have hread : (e.records.get? ⟨0⟩).bind (fun r => r.exported.get? "a") = some 5 := by
    decide +kernel
  have hc : c ∈ w.notebook.codeCells := hcells ▸ List.mem_cons_of_mem _ (List.mem_singleton_self c)
  obtain ⟨hdictates, hagree⟩ := results_after_settling answer Settings.standard Settings.standard
    (pairMoves 5) (pairMoves 7 ++ edit) hsettled
  obtain ⟨record, hrecord, hdictated⟩ := hdictates c hc
  obtain ⟨again, record', hagain, hrecord', hresult, hexported⟩ :=
    hagree hsettled' hcontents c.id (List.mem_map_of_mem hc)
  obtain rfl : record = again := Option.some.inj (hrecord.symm.trans hagain)
  have hvalues := Option.some.inj ((congrArg (Option.map _) hrecord).symm.trans hshown)
  obtain ⟨first, hfirst, hvalue⟩ := Option.bind_eq_some_iff.mp hread
  have hstands : e.StandsFor w.notebook c "a" 5 := by
    refine ⟨⟨_, rfl, Link.same "a", List.mem_singleton_self _, rfl⟩,
      ⟨⟨0⟩, .code (pairSource [] ["a"] 5), .tick 1⟩, ?_,
      ⟨_, rfl, Link.same "a", List.mem_singleton_self _, rfl⟩, first, hfirst, hvalue⟩
    rw [hcells]
    exact List.mem_cons_self
  exact ⟨hsettled, hsettled', hcontents, hstands, record, record', hrecord, hrecord', hdictated,
    congrArg Prod.fst hvalues, congrArg Prod.snd hvalues, hresult.symm, hexported.symm⟩

end World

end Recalc
