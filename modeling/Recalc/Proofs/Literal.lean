import Recalc.Literal
import Recalc.Proofs.Plan.Classification

/-!
# The meaning of literal notebooks

What a literal cell results in can be said without an engine: a faulty cell in its fault, and any
other in the values of its literals, where a name stands for what the one cell that exports it binds
to it (`Notebook.resultIn`). The equation goes round where cells read from each other, but what can
run reads from cells before it in the plan only, so it has exactly one solution
(`Notebook.outcome_unique`), which is reached by unfolding it as often as there are code cells.
-/

namespace Recalc

open Relation

namespace Literal

/-- What a literal is, where some names stand for values. -/
def denote (standsFor? : Name → Option Json) : Json → Except String Json
  | .string text =>
    match reference? text with
    | some name =>
      match standsFor? name with
      | some v => .ok v
      | none => .error (name ++ " is not defined")
    | none => .ok (.string text)
  | .object members =>
    match members.lookup "$throw" with
    | some (.string message) => .error message
    | some v => .error v.compact
    | none => .ok (.object members)
  | v => .ok v

/-- The literals of a code in the order of their declaration, up to the first throw. -/
def denoteAll (standsFor? : Name → Option Json) (code : LiteralCode) :
    Except String (Bindings Json) :=
  (code.mapM fun b => (denote standsFor? b.2).map fun v => (b.1, v)).map Table.ofList

theorem evaluate_eq_denote {inputs : Bindings Json} {standsFor? : Name → Option Json}
    (h : inputs.get? = standsFor?) (v : Json) : evaluate inputs v = denote standsFor? v := by
  subst h
  cases v with
  | string text =>
    rw [evaluate, denote]
    cases reference? text <;> rfl
  | object members =>
    rw [evaluate, denote]
    cases members.lookup "$throw" with
    | none => rfl
    | some thrown => cases thrown <;> rfl
  | _ => rfl

theorem bindAll_eq_denoteAll {inputs : Bindings Json} {standsFor? : Name → Option Json}
    (h : inputs.get? = standsFor?) (code : LiteralCode) :
    bindAll inputs ∅ code = denoteAll standsFor? code := by
  -- with bindings made before
  suffices hfrom : ∀ bound : Bindings Json, bindAll inputs bound code =
      (code.mapM fun b => (denote standsFor? b.2).map fun v => (b.1, v)).map
        fun l => l.foldl (fun t b => t.insert b.1 b.2) bound from hfrom ∅
  induction code with
  | nil => exact fun _ => rfl
  | cons b rest ih =>
    intro bound
    rw [bindAll, evaluate_eq_denote h, List.mapM_cons]
    cases denote standsFor? b.2 with
    | error message => rfl
    | ok v =>
      refine (ih (bound.insert b.1 v)).trans ?_
      cases (rest.mapM fun b => (denote standsFor? b.2).map fun v => (b.1, v)) <;> rfl

end Literal

namespace Notebook

variable {nb : Notebook LiteralCode} {c : Cell LiteralCode}
  {results results' : CellId → Result Json}

/-- What a name stands for in a program: the value bound to it by the only cell that exports it, if the
program imports the name and that cell can run and did not throw. The name `default` stands for
nothing. -/
def standsFor? (nb : Notebook LiteralCode) (results : CellId → Result Json)
    (p : Program LiteralCode) (name : Name) : Option Json :=
  if name ≠ Name.default ∧ ∃ i ∈ p.imports, i.input = name then
    match nb.codeCells.filter fun c => c.interface.Exports name with
    | [c] =>
      if ((Plan.draft nb).runnable? c.id).isSome then
        (results c.id).bindings?.bind fun bindings => bindings.get? name
      else none
    | _ => none
  else none

/-- The result of a code cell, by the results of the others. -/
def resultIn (nb : Notebook LiteralCode) (results : CellId → Result Json) (c : Cell LiteralCode) :
    Result Json :=
  match (Plan.draft nb).faulty? c.id with
  | some f => .threw f.fault
  | none =>
    match c.content.program? with
    | none => .notRun
    | some p => Engine.resultOf (Literal.denoteAll (nb.standsFor? results p) p.code)

/-- The equation of results, unfolded so many times. -/
def outcomeWithin (nb : Notebook LiteralCode) : Nat → CellId → Result Json
  | 0, _ => .notRun
  | depth + 1, id => ((nb.cell? id).map (nb.resultIn (nb.outcomeWithin depth))).getD .notRun

def outcome (nb : Notebook LiteralCode) : CellId → Result Json :=
  nb.outcomeWithin nb.codeCells.length

theorem standsFor?_eq_some_iff {p : Program LiteralCode} (hV : nb.Valid) {name : Name} {v : Json} :
    nb.standsFor? results p name = some v ↔
      name ≠ Name.default ∧ (∃ i ∈ p.imports, i.input = name) ∧
        ∃ d ∈ nb.codeCells, d.Exports name ∧
          (∀ d' ∈ nb.codeCells, d'.Exports name → d' = d) ∧ (Plan.draft nb).CanRun d.id ∧
            ∃ bindings, (results d.id).bindings? = some bindings ∧ bindings.get? name = some v := by
  have hexports (d : Cell LiteralCode) :
      d ∈ (nb.codeCells.filter fun c => c.interface.Exports name) ↔
        d ∈ nb.codeCells ∧ d.Exports name := by
    rw [List.mem_filter, decide_eq_true_iff, Cell.exports_interface_iff]
  rw [standsFor?]
  split
  · next himports =>
    rw [and_iff_right himports.1, and_iff_right himports.2]
    constructor
    · intro h
      split at h
      · next d hd =>
        split at h
        · next hrun =>
          obtain ⟨bindings, hbindings, hv⟩ := Option.bind_eq_some_iff.mp h
          obtain ⟨hmem, hexp⟩ := (hexports d).mp (hd ▸ List.mem_singleton_self d)
          refine ⟨d, hmem, hexp, fun d' hd' hexp' => ?_,
            (Plan.sound_draft hV).isSome_runnable?_iff.mp hrun, bindings, hbindings, hv⟩
          exact List.mem_singleton.mp (hd ▸ (hexports d').mpr ⟨hd', hexp'⟩)
        · cases h
      · cases h
    · rintro ⟨d, hd, hexp, honly, hrun, bindings, hbindings, hv⟩
      have hfilter : (nb.codeCells.filter fun c => c.interface.Exports name) = [d] := by
        have hnodup : (nb.codeCells.filter fun c => c.interface.Exports name).Nodup :=
          (List.Nodup.of_map Cell.id hV.nodup_codeIds).filter _
        refine List.perm_singleton.mp ((List.perm_ext_iff_of_nodup hnodup
          (List.nodup_singleton d)).mpr fun d' => ?_)
        rw [hexports, List.mem_singleton]
        exact ⟨fun h => honly d' h.1 h.2, fun h => h ▸ ⟨hd, hexp⟩⟩
      rw [hfilter]
      dsimp only
      rw [if_pos ((Plan.sound_draft hV).isSome_runnable?_iff.mpr hrun), hbindings]
      exact hv
  · next hnot => exact iff_of_false nofun fun h => hnot ⟨h.1, h.2.1⟩

/-- The entry of a code cell says how its result comes about, whatever the other cells result in. -/
theorem resultIn_cases (hV : nb.Valid) (hc : c ∈ nb.codeCells)
    {source : Compilation LiteralCode} (hs : c.content = .code source) :
    (∃ f, Plan.entryAt nb c source = .faulty f ∧
      ∀ results, nb.resultIn results c = .threw f.fault) ∨
    ∃ p, source = .ok p ∧ Plan.entryAt nb c source =
        .runnable ⟨(Plan.graphOf nb).node c.id, p.code, p.resultName, c.requested⟩ ∧
      ∀ results, nb.resultIn results c =
        Engine.resultOf (Literal.denoteAll (nb.standsFor? results p) p.code) := by
  have hfind : (Plan.draft nb).find? c.id = some (Plan.entryAt nb c source) :=
    (Plan.sound_draft hV).find?_eq_some_iff.mpr
      ⟨(Plan.mem_entries_iff hV).mpr ⟨c, hc, source, hs, rfl⟩, Plan.id_entryAt _ _ _⟩
  rcases Plan.entryAt_eq nb c source with ⟨fault, _, he⟩ | ⟨p, rfl, _, he⟩
  · refine Or.inl ⟨_, he, fun results => ?_⟩
    rw [resultIn, Plan.faulty?, hfind, he]
    rfl
  · refine Or.inr ⟨p, rfl, he, fun results => ?_⟩
    rw [resultIn, Plan.faulty?, hfind, he, hs]
    rfl

/-- The result of a cell depends on the results of the cells that feed it, if it can run. -/
theorem resultIn_congr (hV : nb.Valid) (hc : c ∈ nb.codeCells)
    (h : (Plan.draft nb).CanRun c.id →
      ∀ u, (Plan.graphOf nb).Feeds u c.id → results u = results' u) :
    nb.resultIn results c = nb.resultIn results' c := by
  obtain ⟨source, hs⟩ := Plan.exists_source hc
  rcases resultIn_cases hV hc hs with ⟨f, _, hthrew⟩ | ⟨p, rfl, he, hresult⟩
  · rw [hthrew, hthrew]
  have hrun : (Plan.draft nb).CanRun c.id :=
    ⟨_, Plan.mem_runnables_iff.mpr ((Plan.mem_entries_iff hV).mpr ⟨c, hc, _, hs, he.symm⟩), rfl⟩
  have hp : c.content.program? = some p := by rw [hs]; rfl
  have hsame : nb.standsFor? results p = nb.standsFor? results' p := by
    funext name
    refine Option.ext fun v => ?_
    rw [standsFor?_eq_some_iff hV, standsFor?_eq_some_iff hV]
    refine and_congr_right fun _ => and_congr_right fun himports => exists_congr fun d =>
      and_congr_right fun hd => and_congr_right fun hexp => ?_
    have hinput := Plan.mem_inputs_of_imports hc hd ⟨p, hp, himports⟩ hexp
    rw [h hrun d.id ⟨_, Graph.mem_inputs_iff.mp hinput, rfl, rfl⟩]
  rw [hresult, hresult, hsame]

/-- Results that come from the equation, in any number of steps above the place of a cell in the plan,
agree on the cell. -/
theorem eq_along_plan (hV : nb.Valid) {R S : Nat → CellId → Result Json}
    (hR : ∀ n, ∀ c ∈ nb.codeCells, R (n + 1) c.id = nb.resultIn (R n) c)
    (hS : ∀ n, ∀ c ∈ nb.codeCells, S (n + 1) c.id = nb.resultIn (S n) c)
    (before after : List (Entry LiteralCode))
    (hplan : (Plan.draft nb).entries = before ++ after) :
    ∀ x ∈ before, ∀ m n, before.length ≤ m → before.length ≤ n → R m x.id = S n x.id := by
  -- on the part of the plan that has been gone through
  induction before using List.reverseRecOn generalizing after with
  | nil => exact fun _ hx => absurd hx List.not_mem_nil
  | append_singleton before x ih =>
    have hrest : (Plan.draft nb).entries = before ++ x :: after := by
      rw [hplan, List.append_assoc, List.singleton_append]
    have hbefore := ih (x :: after) hrest
    intro y hy m n hm hn
    rw [List.length_append, List.length_singleton] at hm hn
    rcases List.mem_append.mp hy with hy | hy
    · exact hbefore y hy m n (by omega) (by omega)
    rw [List.mem_singleton.mp hy]
    obtain ⟨m, rfl⟩ := Nat.exists_eq_succ_of_ne_zero (by omega : m ≠ 0)
    obtain ⟨n, rfl⟩ := Nat.exists_eq_succ_of_ne_zero (by omega : n ≠ 0)
    have hx : x ∈ (Plan.draft nb).entries := hrest ▸ by simp
    obtain ⟨c, hc, source, hs, rfl⟩ := (Plan.mem_entries_iff hV).mp hx
    rw [Plan.id_entryAt, hR m c hc, hS n c hc]
    refine resultIn_congr hV hc fun hrun u hu => ?_
    have hacyclic := (Plan.sound_draft hV).acyclic_of_canRun hrun
    obtain ⟨z, hz, rfl⟩ := (Plan.sound_draft hV).mem_before_of_acyclic hrest
      (by rwa [Plan.id_entryAt]) (by rw [Plan.id_entryAt]; exact .single hu)
    exact hbefore z hz m n (by omega) (by omega)

theorem outcomeWithin_succ (hV : nb.Valid) (depth : Nat) (hc : c ∈ nb.codeCells) :
    nb.outcomeWithin (depth + 1) c.id = nb.resultIn (nb.outcomeWithin depth) c := by
  rw [outcomeWithin, hV.cell?_eq_some (mem_codeCells_iff.mp hc).1]
  rfl

theorem exists_entry (hV : nb.Valid) (hc : c ∈ nb.codeCells) :
    ∃ x ∈ (Plan.draft nb).entries, x.id = c.id :=
  Plan.mem_order_iff.mp ((Plan.mem_order_draft_iff hV).mpr (List.mem_map_of_mem hc))

theorem length_entries (hV : nb.Valid) : (Plan.draft nb).entries.length = nb.codeCells.length := by
  have hperm := (Plan.order_draft_perm hV).length_eq
  rwa [Plan.order, codeIds, List.length_map, List.length_map] at hperm

/-- The outcomes solve the equation of results. -/
theorem outcome_eq (hV : nb.Valid) (hc : c ∈ nb.codeCells) :
    nb.outcome c.id = nb.resultIn nb.outcome c := by
  obtain ⟨x, hx, hid⟩ := exists_entry hV hc
  have hlength := length_entries hV
  rw [outcome, ← outcomeWithin_succ hV _ hc, ← hid]
  exact eq_along_plan hV (fun n _ => outcomeWithin_succ hV n) (fun n _ => outcomeWithin_succ hV n)
    _ [] (List.append_nil _).symm x hx _ _ (by omega) (by omega)

/-- Nothing else solves it. -/
theorem outcome_unique (hV : nb.Valid) (results : CellId → Result Json)
    (h : ∀ c ∈ nb.codeCells, results c.id = nb.resultIn results c) (hc : c ∈ nb.codeCells) :
    results c.id = nb.outcome c.id := by
  obtain ⟨x, hx, hid⟩ := exists_entry hV hc
  have hlength := length_entries hV
  rw [outcome, ← hid]
  exact eq_along_plan hV (R := fun _ => results) (fun _ => h)
    (fun n _ => outcomeWithin_succ hV n) _ [] (List.append_nil _).symm x hx nb.codeCells.length _
    (by omega) (by omega)

end Notebook

end Recalc
