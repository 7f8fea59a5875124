import Recalc.NotebookFile
import Recalc.Proofs.Codec
import Recalc.Proofs.Notebook

/-!
# Notebooks of files

The cells of a file are placed one after the other. The counter of the notebook stays one above the
largest number so far (`Assembled`), so a cell has a place unless it brings a number that is taken, or
its number leaves none for the next cell (`Assembled.place`).
Whether a cell has a program or the error of a compiler, and what the program exports, is read off
its entry in the file (`Describes`).
-/

namespace Recalc

/-! ## Members of an object -/

namespace Json

theorem names_setMember (name : String) (value : Json) (members : List (String × Json)) :
    (setMember name value members).map Prod.fst =
      if name ∈ members.map Prod.fst then members.map Prod.fst
      else members.map Prod.fst ++ [name] := by
  induction members with
  | nil => rfl
  | cons m rest ih =>
    rw [setMember]
    split
    · next h => simp [h]
    · next h =>
      have hne : name ≠ m.1 := fun heq => h heq.symm
      rw [List.map_cons, ih]
      by_cases hmem : name ∈ rest.map Prod.fst
      · rw [if_pos hmem, List.map_cons, if_pos (List.mem_cons_of_mem _ hmem)]
      · rw [if_neg hmem, List.map_cons, if_neg (by simpa [hne] using hmem), List.cons_append]

theorem nodup_names_collapseMembers (done members : List (String × Json))
    (h : (done.map Prod.fst).Nodup) : ((collapseMembers done members).map Prod.fst).Nodup := by
  induction members generalizing done with
  | nil => exact h
  | cons m rest ih =>
    refine ih _ ?_
    rw [names_setMember]
    split
    · exact h
    · next hnew =>
      exact h.append (List.nodup_singleton _) (List.disjoint_singleton.mpr hnew)

theorem eq_of_fields?_object {names : List String} {members : List (String × Json)}
    {fields : List (Option Json)} (h : (object members).fields? names = some fields) :
    fields = names.map fun name => members.lookup name := by
  rw [fields?] at h
  split at h
  · exact (Option.some.inj h).symm
  · cases h

theorem eq_of_fields?_array {names : List String} {items : List Json}
    {fields : List (Option Json)} (h : (array items).fields? names = some fields) :
    fields = (List.range names.length).map fun i => items[i]? := by
  rw [fields?] at h
  split at h
  · exact (Option.some.inj h).symm
  · cases h

theorem exists_of_optional? {α : Type} {decode : Json → Option α} {v : Option Json} {a : α}
    (h : optional? decode v = some (some a)) : ∃ w, v = some w ∧ decode w = some a := by
  rw [optional?.eq_def] at h
  split at h
  · cases h
  · cases h
  · next w _ =>
    obtain ⟨b, hb, heq⟩ := Option.map_eq_some_iff.mp h
    cases heq
    exact ⟨w, rfl, hb⟩

theorem eq_of_optional?_none {α : Type} {decode : Json → Option α} {v : Option Json}
    (h : optional? decode v = some none) : v = none ∨ v = some null := by
  rw [optional?.eq_def] at h
  split at h
  · exact .inl rfl
  · exact .inr rfl
  · obtain ⟨b, _, hb⟩ := Option.map_eq_some_iff.mp h
    cases hb

theorem eq_of_string? {v : Json} {s : String} (h : v.string? = some s) : v = string s := by
  cases v <;> cases h
  rfl

end Json

namespace NotebookFile

/-! ## What an entry says -/

/-- What the fields of a code cell have for the error of a compiler. -/
def errorField? : Json → Option Json
  | .object members => members.lookup "error"
  | .array fields => fields[3]?
  | _ => none

/-- The error of a compiler beside a kind, whatever else the fields have. -/
def errorBeside? (kind : String) (fields : Json) : Option String :=
  if kind = "code" then (errorField? fields).bind Json.string? else none

/-- The error of a compiler in the entry of a cell. -/
def compilerError? : Json → Option String
  | .object members =>
    match members.lookup "kind" with
    | some (.string kind) => errorBeside? kind (.object members)
    | _ => none
  | .array (.string kind :: fields) => errorBeside? kind (.array fields)
  | _ => none

/-- A program whose links and literals have the same names in the same order, each once. -/
def NamesOnce (p : Program LiteralCode) : Prop :=
  p.exports = p.code.map (fun b => Link.same b.1) ∧ (p.code.map Prod.fst).Nodup

/-- The content of a cell as its entry in a file has it. -/
structure Describes (entry : Json) (content : Content LiteralCode) : Prop where
  program : ∀ p, content = .code (.ok p) → NamesOnce p
  error_iff : ∀ message, content = .code (.error message) ↔ compilerError? entry = some message

theorem nodup_names_decodeExports? {v : Option Json} {code : LiteralCode}
    (h : decodeExports? v = some code) : (code.map Prod.fst).Nodup := by
  cases v with
  | none =>
    cases h
    exact List.nodup_nil
  | some v =>
    cases v with
    | object members =>
      cases h
      exact Json.nodup_names_collapseMembers [] members List.nodup_nil
    | _ => cases h

theorem number_lt_of_nat? {v : Json} {n : Nat} (h : v.nat? = some n) : n < CellId.bound := by
  cases v with
  | int i =>
    rw [Json.nat?] at h
    split at h
    · next hrange =>
      cases h
      exact (Int.toNat_lt hrange.1).mpr hrange.2
    · cases h
  | _ => cases h

theorem number_lt_of_decodeId? {v : Option Json} {id : CellId}
    (h : decodeId? v = some (some id)) : id.number < CellId.bound := by
  obtain ⟨w, _, hw⟩ := Json.exists_of_optional? h
  obtain ⟨n, hn, rfl⟩ := Option.map_eq_some_iff.mp hw
  exact number_lt_of_nat? hn

theorem errorBeside?_code_iff {fields : Json} {message : String} :
    errorBeside? "code" fields = some message ↔ errorField? fields = some (.string message) := by
  rw [errorBeside?, if_pos rfl, Option.bind_eq_some_iff]
  constructor
  · rintro ⟨v, hv, hstring⟩
    rw [hv, Json.eq_of_string? hstring]
  · intro h
    exact ⟨_, h, rfl⟩

theorem eq_errorField? {v : Json} {id imports exports error topLevelReturn resultName : Option Json}
    (h : v.fields? ["id", "imports", "exports", "error", "top_level_return", "result_name"] =
      some [id, imports, exports, error, topLevelReturn, resultName]) : error = errorField? v := by
  cases v with
  | object members =>
    have hfields := Json.eq_of_fields?_object h
    simp only [List.map_cons, List.cons.injEq] at hfields
    exact hfields.2.2.2.1
  | array items =>
    have hfields := Json.eq_of_fields?_array h
    simp only [List.length_cons, List.length_nil, List.range_succ, List.range_zero,
      List.map_cons, List.map_nil, List.nil_append, List.cons_append, List.cons.injEq] at hfields
    exact hfields.2.2.2.1
  | _ => cases h

/-- A code cell has the error that its fields list, and only without one a program. -/
theorem decodeCode?_eq_some {v : Json} {c : FileCell} (h : decodeCode? v = some c) :
    (∀ id, c.id = some id → id.number < CellId.bound) ∧
      ((∃ message, errorField? v = some (.string message) ∧ c.content = .code (.error message)) ∨
        (∀ message, errorField? v ≠ some (.string message)) ∧
          ∃ p, c.content = .code (.ok p) ∧ NamesOnce p) := by
  rw [decodeCode?] at h
  simp only [Option.bind_eq_bind, Option.bind_eq_some_iff] at h
  obtain ⟨fields, hfields, h⟩ := h
  split at h
  · next id imports exports error topLevelReturn resultName =>
    simp only [Option.bind_eq_some_iff] at h
    obtain ⟨number, hid, links, _, code, hexports, reported, herror, _, _, _, _, hc⟩ := h
    cases hc
    refine ⟨fun id hsome => number_lt_of_decodeId? (hid.trans (congrArg some hsome)), ?_⟩
    rw [← eq_errorField? hfields]
    cases reported with
    | some message =>
      obtain ⟨w, rfl, hw⟩ := Json.exists_of_optional? herror
      exact .inl ⟨message, congrArg some (Json.eq_of_string? hw), rfl⟩
    | none =>
      refine .inr ⟨fun message hmessage => ?_, _, rfl, rfl, nodup_names_decodeExports? hexports⟩
      rcases Json.eq_of_optional?_none herror with hnone | hnull
      · rw [hnone] at hmessage
        cases hmessage
      · rw [hnull] at hmessage
        cases hmessage
  · cases h

theorem decodeText?_eq_some {v : Json} {c : FileCell} (h : decodeText? v = some c) :
    (∀ id, c.id = some id → id.number < CellId.bound) ∧ ∃ body, c.content = .text body := by
  rw [decodeText?] at h
  simp only [Option.bind_eq_bind, Option.bind_eq_some_iff] at h
  obtain ⟨fields, _, h⟩ := h
  split at h
  · simp only [Option.bind_eq_some_iff] at h
    obtain ⟨number, hid, body, _, hc⟩ := h
    cases hc
    exact ⟨fun id hsome => number_lt_of_decodeId? (hid.trans (congrArg some hsome)), body, rfl⟩
  · cases h

/-- The fields beside the kind settle what the cell is. -/
theorem describes_of_ofKind? {entry fields : Json} {kind : String} {c : FileCell}
    (h : ofKind? kind fields = some c) (herror : compilerError? entry = errorBeside? kind fields) :
    (∀ id, c.id = some id → id.number < CellId.bound) ∧ Describes entry c.content := by
  rw [ofKind?.eq_def] at h
  split at h
  · obtain ⟨hnumber, hcontent⟩ := decodeCode?_eq_some h
    refine ⟨hnumber, ?_⟩
    rcases hcontent with ⟨message, hfield, hc⟩ | ⟨hfield, p, hc, hnames⟩
    · rw [hc]
      refine ⟨nofun, fun other => ?_⟩
      rw [herror, errorBeside?_code_iff, hfield]
      simp
    · rw [hc]
      refine ⟨fun q hq => ?_, fun other => ?_⟩
      · cases hq
        exact hnames
      · rw [herror, errorBeside?_code_iff]
        exact iff_of_false nofun (hfield other)
  · obtain ⟨hnumber, body, hc⟩ := decodeText?_eq_some h
    rw [hc]
    refine ⟨hnumber, nofun, fun other => ?_⟩
    rw [herror, errorBeside?, if_neg (by decide)]
    exact iff_of_false nofun nofun
  · cases h

theorem describes_of_decodeCell? {entry : Json} {c : FileCell} (h : decodeCell? entry = some c) :
    (∀ id, c.id = some id → id.number < CellId.bound) ∧ Describes entry c.content := by
  rw [decodeCell?.eq_def] at h
  split at h
  · next members =>
    obtain ⟨fields, hfields, h⟩ := Option.bind_eq_some_iff.mp h
    split at h
    · next kind =>
      have hkind : members.lookup "kind" = some (.string kind) :=
        (List.cons.inj (Json.eq_of_fields?_object hfields)).1.symm
      refine describes_of_ofKind? h ?_
      rw [compilerError?, hkind]
    · cases h
  · exact describes_of_ofKind? h rfl
  · cases h

/-! ## Numbers in order -/

/-- One more than the largest number so far, and 0 if there is none. -/
def numberAfter (earlier : List CellId) : CellId :=
  match (earlier.map CellId.number).max? with
  | none => ⟨0⟩
  | some largest => ⟨largest + 1⟩

/-- The numbers of cells: each brings its own or takes the one after all earlier ones. -/
def numbers (cells : List FileCell) : List CellId :=
  cells.foldl (fun earlier c => earlier ++ [c.id.getD (numberAfter earlier)]) []

/-- A cell has a place after others: it does not bring a number that is taken, and its number, whether
it brings it or not, is not the largest of all. -/
def Fits (earlier : List CellId) (c : FileCell) : Prop :=
  (∀ id, c.id = some id → id ∉ earlier) ∧
    (c.id.getD (numberAfter earlier)).number + 1 ≠ CellId.bound

def Placeable (cells : List FileCell) : Prop :=
  ∀ before c after, cells = before ++ c :: after → Fits (numbers before) c

/-- Why a cell is refused after others. -/
inductive Offends (earlier : List CellId) (c : FileCell) : Refusal → Prop
  | taken {id : CellId} : c.id = some id → id ∈ earlier → Offends earlier c (.duplicateCell id)
  | last {id : CellId} : c.id.getD (numberAfter earlier) = id → id ∉ earlier →
    id.number + 1 = CellId.bound → Offends earlier c (.cellIdOverflow id)

/-- The notebook of cells. The counter stands above all the numbers and below the bound, and the clock
has ticked once for each code cell. -/
structure Assembled (cells : List FileCell) (nb : Notebook LiteralCode) : Prop where
  ids : nb.ids = numbers cells
  contents : nb.cells.map Cell.content = cells.map FileCell.content
  requested : nb.codeCells.map Cell.requested =
    (List.range nb.codeCells.length).map fun i => .tick (i + 1)
  requested_text : ∀ c ∈ nb.cells, c.isCode = false → c.requested = .earliest
  nextId : nb.nextId = numberAfter (numbers cells)
  nextId_lt : nb.nextId.number < CellId.bound
  ticks : nb.clock.ticks = nb.codeCells.length

theorem numberAfter_cons (first : CellId) (rest : List CellId) :
    numberAfter (first :: rest) = ⟨(rest.map CellId.number).foldl max first.number + 1⟩ := by
  rw [numberAfter, List.map_cons, List.max?_cons']

theorem numberAfter_concat (earlier : List CellId) (id : CellId) :
    numberAfter (earlier ++ [id]) = ⟨max (numberAfter earlier).number (id.number + 1)⟩ := by
  cases earlier with
  | nil => rw [List.nil_append, numberAfter_cons]; exact congrArg CellId.mk (Nat.zero_max _).symm
  | cons first rest =>
    rw [List.cons_append, numberAfter_cons, numberAfter_cons, List.map_append, List.foldl_append]
    exact congrArg CellId.mk (Nat.succ_max_succ _ _).symm

theorem lt_numberAfter {earlier : List CellId} {id : CellId} (hid : id ∈ earlier) :
    id.number < (numberAfter earlier).number := by
  induction earlier using List.reverseRecOn with
  | nil => cases hid
  | append_singleton init last ih =>
    rw [numberAfter_concat]
    dsimp only
    rcases List.mem_append.mp hid with hinit | hlast
    · have hlt := ih hinit
      omega
    · rw [List.mem_singleton.mp hlast]
      omega

theorem numbers_concat (before : List FileCell) (c : FileCell) :
    numbers (before ++ [c]) = numbers before ++ [c.id.getD (numberAfter (numbers before))] := by
  rw [numbers, List.foldl_append]
  rfl

theorem placeable_nil : Placeable [] := by
  intro before c after h
  simp at h

theorem Placeable.concat {before : List FileCell} (h : Placeable before) {c : FileCell}
    (hc : Fits (numbers before) c) : Placeable (before ++ [c]) := by
  intro front d after heq
  rcases List.eq_nil_or_concat after with rfl | ⟨init, last, rfl⟩
  · obtain ⟨rfl, hdc⟩ := List.append_inj' heq rfl
    cases hdc
    exact hc
  · rw [List.concat_eq_append, ← List.cons_append, ← List.append_assoc] at heq
    exact h front d init (List.append_inj' heq rfl).1

theorem Offends.not_fits {earlier : List CellId} {c : FileCell} {r : Refusal}
    (h : Offends earlier c r) : ¬ Fits earlier c := by
  rintro ⟨hfree, hroom⟩
  cases h with
  | taken hid htaken => exact hfree _ hid htaken
  | last hid _ hlast => exact hroom (hid ▸ hlast)

/-! ## Placing cells -/

theorem assembled_empty : Assembled [] Notebook.empty where
  ids := rfl
  contents := rfl
  requested := rfl
  requested_text := nofun
  nextId := rfl
  nextId_lt := Nat.pow_pos Nat.two_pos
  ticks := rfl

section Placing

variable {before : List FileCell} {nb : Notebook LiteralCode}

theorem Assembled.append (h : Assembled before nb) {c : FileCell} {id : CellId}
    (hid : c.id.getD nb.nextId = id) (hroom : id.number + 1 < CellId.bound) :
    Assembled (before ++ [c]) (nb.append id ⟨max nb.nextId.number (id.number + 1)⟩ c.content) := by
  have hnumbers : numbers (before ++ [c]) = numbers before ++ [id] := by
    rw [numbers_concat, ← h.nextId, hid]
  have hids := Notebook.ids_append nb id ⟨max nb.nextId.number (id.number + 1)⟩ c.content
  rw [h.ids, ← hnumbers] at hids
  have hnextId : (⟨max nb.nextId.number (id.number + 1)⟩ : CellId) =
      numberAfter (numbers (before ++ [c])) := by
    rw [hnumbers, numberAfter_concat, ← h.nextId]
  have hlt : max nb.nextId.number (id.number + 1) < CellId.bound :=
    Nat.max_lt.mpr ⟨h.nextId_lt, hroom⟩
  have hcontents : nb.cells.map Cell.content ++ [c.content] =
      (before ++ [c]).map FileCell.content := by
    rw [List.map_append, h.contents]
    rfl
  have htext : ∀ x ∈ (nb.append id ⟨max nb.nextId.number (id.number + 1)⟩ c.content).cells,
      x.isCode = false → x.requested = .earliest := by
    intro x hx hx'
    rcases Notebook.of_mem_append hx with hold | rfl
    · exact h.requested_text x hold hx'
    · exact if_neg (Bool.eq_false_iff.mp hx')
  obtain ⟨number, content⟩ := c
  cases content with
  | text body =>
    refine ⟨hids, List.map_append.trans hcontents, ?_, htext, hnextId, hlt, ?_⟩
    · rw [Notebook.codeCells_append_text]
      exact h.requested
    · rw [Notebook.codeCells_append_text]
      exact h.ticks
  | code source =>
    refine ⟨hids, List.map_append.trans hcontents, ?_, htext, hnextId, hlt, ?_⟩
    · rw [Notebook.codeCells_append_code, List.map_append, h.requested, List.length_append,
        List.length_singleton, List.range_succ, List.map_append, ← h.ticks]
      rfl
    · rw [Notebook.codeCells_append_code, List.length_append, ← h.ticks]
      rfl

theorem refusal?_call {c : FileCell} (hfree : ∀ id, c.id = some id → id ∉ nb.ids) :
    nb.refusal? c.call = Notebook.overflow? (c.id.getD nb.nextId) := by
  obtain ⟨number, content⟩ := c
  cases number with
  | none => cases content <;> rfl
  | some id => exact if_neg (mt Notebook.contains_iff.mp (hfree id rfl))

theorem apply_call {c : FileCell} (hfree : ∀ id, c.id = some id → id ∉ nb.ids) :
    nb.apply c.call = nb.push (c.id.getD nb.nextId) c.content := by
  obtain ⟨number, content⟩ := c
  cases number with
  | none => cases content <;> rfl
  | some id => exact Notebook.insert_of_notMem (hfree id rfl) content

theorem refusal?_call_of_taken {c : FileCell} {id : CellId} (hid : c.id = some id)
    (htaken : id ∈ nb.ids) : nb.refusal? c.call = some (.duplicateCell id) := by
  obtain ⟨number, content⟩ := c
  obtain rfl : number = some id := hid
  exact if_pos (Notebook.contains_iff.mpr htaken)

theorem Assembled.number_of_free (h : Assembled before nb) {c : FileCell}
    (hfree : ∀ id, c.id = some id → id ∉ numbers before)
    (hlt : ∀ id, c.id = some id → id.number < CellId.bound) :
    (c.id.getD nb.nextId).number < CellId.bound ∧ c.id.getD nb.nextId ∉ numbers before := by
  cases hid : c.id with
  | none => exact ⟨h.nextId_lt, fun hmem => Nat.lt_irrefl _ (h.nextId ▸ lt_numberAfter hmem)⟩
  | some id => exact ⟨hlt id hid, hfree id hid⟩

/-- The next cell is placed behind the others if it fits, and offends if it does not. -/
theorem Assembled.place (h : Assembled before nb) (c : FileCell)
    (hlt : ∀ id, c.id = some id → id.number < CellId.bound) :
    (∃ next, place nb c = .ok next ∧ Assembled (before ++ [c]) next ∧ Fits (numbers before) c) ∨
    ∃ r, place nb c = .error r ∧ Offends (numbers before) c r := by
  by_cases htaken : ∃ id, c.id = some id ∧ id ∈ numbers before
  · obtain ⟨id, hid, htaken⟩ := htaken
    refine .inr ⟨.duplicateCell id, ?_, .taken hid htaken⟩
    rw [NotebookFile.place, refusal?_call_of_taken hid (h.ids ▸ htaken)]
  have hfree : ∀ id, c.id = some id → id ∉ numbers before :=
    fun id hid hmem => htaken ⟨id, hid, hmem⟩
  have hfree' : ∀ id, c.id = some id → id ∉ nb.ids := h.ids ▸ hfree
  rw [NotebookFile.place, refusal?_call hfree', apply_call hfree']
  cases hnext : (c.id.getD nb.nextId).next? with
  | some after =>
    obtain ⟨hroom, rfl⟩ := CellId.next?_eq_some_iff.mp hnext
    rw [Notebook.overflow?_eq_none_iff.mpr ⟨_, hnext⟩, Notebook.push_of_next hnext]
    exact .inl ⟨_, rfl, h.append rfl hroom, hfree, h.nextId ▸ Nat.ne_of_lt hroom⟩
  | none =>
    obtain ⟨hbelow, hnew⟩ := h.number_of_free hfree hlt
    have hlast := Nat.le_antisymm hbelow (CellId.next?_eq_none_iff.mp hnext)
    refine .inr ⟨.cellIdOverflow (c.id.getD nb.nextId), ?_, .last ?_ hnew hlast⟩
    · rw [Notebook.overflow?, hnext]
    · rw [h.nextId]

end Placing

theorem assemble_concat (before : List FileCell) (c : FileCell) :
    assemble (before ++ [c]) = assemble before >>= fun nb => place nb c := by
  rw [assemble, List.foldlM_append]
  refine congrArg (assemble before >>= ·) (funext fun nb => ?_)
  rw [List.foldlM_cons]
  exact bind_pure _

theorem assemble_spec (cells : List FileCell)
    (hlt : ∀ c ∈ cells, ∀ id, c.id = some id → id.number < CellId.bound) :
    (∃ nb, assemble cells = .ok nb ∧ Assembled cells nb ∧ Placeable cells) ∨
    ∃ before c after r, assemble cells = .error r ∧ cells = before ++ c :: after ∧
      Placeable before ∧ Offends (numbers before) c r := by
  induction cells using List.reverseRecOn with
  | nil => exact .inl ⟨Notebook.empty, rfl, assembled_empty, placeable_nil⟩
  | append_singleton init last ih =>
    obtain ⟨hinit, hlast⟩ := List.forall_mem_append.mp hlt
    rcases ih hinit with ⟨nb, hnb, hassembled, hplaceable⟩ | ⟨before, c, after, r, hr, rfl, hc⟩
    · have hstep : assemble (init ++ [last]) = place nb last := by
        rw [assemble_concat, hnb]
        rfl
      rw [hstep]
      rcases hassembled.place last (hlast last (List.mem_singleton_self last)) with
        ⟨next, hnext, hplaced, hfits⟩ | ⟨r, hr, hoffends⟩
      · exact .inl ⟨next, hnext, hplaced, hplaceable.concat hfits⟩
      · exact .inr ⟨init, last, [], r, hr, rfl, hplaceable, hoffends⟩
    · refine .inr ⟨before, c, after ++ [last], r, ?_, by simp, hc⟩
      rw [assemble_concat, hr]
      rfl

/-! ## Files -/

/-- A cell of a notebook beside the entry it comes from. -/
structure Loads (entry : Json) (c : Cell LiteralCode) : Prop where
  compiled : ∀ p, c.content = .code (.ok p) →
    c.interface.exports = p.code.map (fun b => Link.same b.1) ∧ (p.code.map Prod.fst).Nodup
  failed_iff : ∀ message, c.content = .code (.error message) ↔ compilerError? entry = some message
  no_ports : ∀ message, c.content = .code (.error message) → c.interface = ⟨c.id, [], []⟩

theorem Describes.loads {entry : Json} {c : Cell LiteralCode} (h : Describes entry c.content) :
    Loads entry c := by
  refine ⟨fun p hp => ?_, h.error_iff, fun message hmessage => ?_⟩
  · rw [Cell.interface, hp]
    exact h.program p hp
  · rw [Cell.interface, hmessage]
    rfl

theorem exists_entries {text : String} {cells : List FileCell} (h : decode? text = some cells) :
    ∃ entries, readCells? text = some (.array entries) ∧
      (∀ c ∈ cells, ∀ id, c.id = some id → id.number < CellId.bound) ∧
        List.Forall₂ Describes entries (cells.map FileCell.content) := by
  obtain ⟨v, hv, hlist⟩ := Option.bind_eq_some_iff.mp h
  obtain ⟨entries, hentries, hcells⟩ := Option.bind_eq_some_iff.mp hlist
  cases v with
  | array items =>
    cases hentries
    have hdecoded : List.Forall₂ (fun c entry => decodeCell? entry = some c) cells entries :=
      (Json.mapM_eq_some_iff.mp hcells).flip
    obtain ⟨hlt, hdescribes⟩ := (List.forall₂_and_left _ _).mp
      (hdecoded.imp fun c entry => describes_of_decodeCell?)
    exact ⟨entries, hv, hlt, List.forall₂_map_right_iff.mpr hdescribes.flip⟩
  | _ => cases hentries

section Parsing

variable {text : String} {cells : List FileCell} (hdecode : decode? text = some cells)

include hdecode

theorem parse_eq_ok_iff {nb : Notebook LiteralCode} :
    parse text = .ok nb ↔ assemble cells = .ok nb := by
  rw [parse, hdecode]
  dsimp only
  split
  · next h => simp [h]
  · next h => simp [h]

theorem parse_eq_error_iff {e : Error} :
    parse text = .error e ↔ ∃ refusal, e = .refused refusal ∧ assemble cells = .error refusal := by
  rw [parse, hdecode]
  dsimp only
  split
  · next h => simp [h, eq_comm]
  · next h => simp [h]

end Parsing

/-- The cells of a file become the cells of a notebook in the same order, if no cell brings the number
of an earlier one and none has the largest number of all; else the first cell that does is refused by
its number. Each cell has the number that it brings, or the one after the largest before it. Code is
requested at 1, 2, 3, … in the order of the file. A program exports the names of its literals, each once
and in their order, and a cell with the error of a compiler exports and imports nothing. -/
theorem parse_numbers_cells (text : String) (cells : List FileCell)
    (hdecode : decode? text = some cells) :
    ((∃ nb, parse text = .ok nb) ↔ Placeable cells) ∧
      (∀ nb, parse text = .ok nb → Assembled cells nb ∧
        ∃ entries, readCells? text = some (.array entries) ∧
          List.Forall₂ Loads entries nb.cells) ∧
      (∀ e, parse text = .error e → ∃ before c after refusal,
        e = .refused refusal ∧ cells = before ++ c :: after ∧ Placeable before ∧
          Offends (numbers before) c refusal) := by
  obtain ⟨entries, hentries, hlt, hdescribes⟩ := exists_entries hdecode
  simp only [parse_eq_ok_iff hdecode, parse_eq_error_iff hdecode]
  rcases assemble_spec cells hlt with
    ⟨nb, hnb, hassembled, hplaceable⟩ | ⟨before, c, after, r, hr, heq, hbefore, hoffends⟩
  · refine ⟨iff_of_true ⟨nb, hnb⟩ hplaceable, fun nb' hnb' => ?_, fun e he => ?_⟩
    · cases hnb.symm.trans hnb'
      rw [← hassembled.contents, List.forall₂_map_right_iff] at hdescribes
      exact ⟨hassembled, entries, hentries, hdescribes.imp fun _ _ => Describes.loads⟩
    · obtain ⟨r, _, hr⟩ := he
      cases hnb.symm.trans hr
  · refine ⟨iff_of_false ?_ fun hplaceable => ?_, fun nb hnb => ?_, fun e he => ?_⟩
    · rintro ⟨nb, hnb⟩
      cases hr.symm.trans hnb
    · exact hoffends.not_fits (hplaceable before c after heq)
    · cases hr.symm.trans hnb
    · obtain ⟨r', rfl, hr'⟩ := he
      cases hr.symm.trans hr'
      exact ⟨before, c, after, r, rfl, heq, hbefore, hoffends⟩

/-- A file with cells in the given text. The first cell brings its number and a name twice. -/
def fileWith (more : String) : String :=
  "\x7b\"cells\":[" ++
    "\x7b\"kind\":\"code\",\"id\":5,\"exports\":\x7b\"b\":1,\"a\":2,\"b\":3\x7d\x7d," ++
    "\x7b\"kind\":\"text\",\"text\":\"\"\x7d," ++
    "\x7b\"kind\":\"code\",\"id\":2,\"error\":\"oops\"\x7d" ++ more ++ "]\x7d"

/-- A cell that brings the number which the text before it was given is refused. -/
theorem parse_numbers_cells_given_and_brought :
    ∃ cells nb clashing, decode? (fileWith "") = some cells ∧ parse (fileWith "") = .ok nb ∧
      Placeable cells ∧ nb.ids = [⟨5⟩, ⟨6⟩, ⟨2⟩] ∧ nb.nextId = ⟨7⟩ ∧
      decode? (fileWith ",[\"text\",6,\"\"]") = some clashing ∧ ¬ Placeable clashing := by
  have hplaced : (decode? (fileWith "")).map
      (fun cells => (numbers cells, (assemble cells).toOption.isSome)) =
        some ([⟨5⟩, ⟨6⟩, ⟨2⟩], true) := by decide +kernel
  have hclash : (decode? (fileWith ",[\"text\",6,\"\"]")).map
      (fun cells => (assemble cells).toOption.isSome) = some false := by decide +kernel
  obtain ⟨cells, hcells, hplaced⟩ := Option.map_eq_some_iff.mp hplaced
  obtain ⟨hnumbers, hsome⟩ := Prod.mk.inj hplaced
  obtain ⟨clashing, hclashing, hnone⟩ := Option.map_eq_some_iff.mp hclash
  obtain ⟨hok, hassembled, _⟩ := parse_numbers_cells _ cells hcells
  obtain ⟨hok', _, _⟩ := parse_numbers_cells _ clashing hclashing
  cases hassemble : assemble cells with
  | error r =>
    rw [hassemble] at hsome
    cases hsome
  | ok nb =>
    have hnb := (parse_eq_ok_iff hcells).mpr hassemble
    have h := (hassembled nb hnb).1
    refine ⟨cells, nb, clashing, hcells, hnb, hok.mp ⟨nb, hnb⟩, h.ids.trans hnumbers, ?_,
      hclashing, fun hplaceable => ?_⟩
    · rw [h.nextId, hnumbers]
      rfl
    · obtain ⟨nb', hnb'⟩ := hok'.mpr hplaceable
      rw [(parse_eq_ok_iff hclashing).mp hnb'] at hnone
      cases hnone

end NotebookFile

end Recalc
