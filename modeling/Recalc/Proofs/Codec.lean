import Mathlib.Data.List.Basic
import Mathlib.Data.List.Forall2
import Mathlib.Data.List.Induction
import Recalc.Codec.Record

/-!
# Serialized forms read back

What is written is read back as it was (`serialized_forms_read_back`), whether it is read at once or
after it was set aside, as long as its numbers fit into 64 bits. Structures are written with a member
for each of their fields, and tagged variants with their tag first, so that nothing but the fields of an
event is set aside on the way.
-/

namespace Recalc

/-! ## Numbers, lists, tables and tags -/

namespace Json

theorem nat?_nat {n : Nat} (h : n < Nat.pow 2 64) : (nat n).nat? = some n := by
  have hrange : (0 : Int) ≤ n ∧ (n : Int) < Nat.pow 2 64 :=
    ⟨Int.natCast_nonneg n, Int.ofNat_lt.mpr h⟩
  rw [nat, nat?, if_pos hrange, Int.toNat_natCast]

theorem mapM_eq_some_iff {α β : Type} {f : α → Option β} {l : List α} {m : List β} :
    l.mapM f = some m ↔ List.Forall₂ (fun a b => f a = some b) l m := by
  induction l generalizing m with
  | nil => simp [eq_comm]
  | cons a rest ih =>
    simp only [List.mapM_cons, Option.bind_eq_bind, Option.bind_eq_some_iff, Option.pure_def,
      Option.some.injEq, ih, List.forall₂_cons_left_iff]
    constructor
    · rintro ⟨b, hb, bs, hbs, rfl⟩
      exact ⟨b, bs, hb, hbs, rfl⟩
    · rintro ⟨b, bs, hb, hbs, rfl⟩
      exact ⟨b, hb, bs, hbs, rfl⟩

/-- A list is read back if every item of it is. -/
theorem list?_array {α : Type} {encode : α → Json} {decode : Json → Option α} {l : List α}
    (h : ∀ a ∈ l, decode (encode a) = some a) :
    (array (l.map encode)).list? decode = some l := by
  rw [list?, array?, Option.bind_some, mapM_eq_some_iff, List.forall₂_map_left_iff]
  exact List.forall₂_same.mpr h

theorem eq_of_read_back {α : Type} {encode : α → Json} {decode : Json → Option α} {a b : α}
    (ha : decode (encode a) = some a) (hb : decode (encode b) = some b)
    (h : encode a = encode b) : a = b := by
  rw [h, hb] at ha
  exact (Option.some.inj ha).symm

variable {tag content : String}

theorem tagged?_pair (r : Reading) (hne : tag ≠ content) (name : String) (value : Json)
    (names : List String) :
    (object [(tag, string name), (content, value)]).tagged? r tag content names =
      some (name, r, some value) := by
  have hne' : (content == tag) = false := beq_false_of_ne hne.symm
  have hne'' : (tag == content) = false := beq_false_of_ne hne
  simp [tagged?, fields?, occursOnce, contentReading, variant?, List.lookup_cons, hne', hne'']

theorem tagged?_tag (r : Reading) (hne : tag ≠ content) (name : String) (names : List String) :
    (object [(tag, string name)]).tagged? r tag content names = some (name, r, none) := by
  have hne' : (content == tag) = false := beq_false_of_ne hne.symm
  simp [tagged?, fields?, occursOnce, contentReading, variant?, List.lookup_cons, hne, hne']

end Json

namespace Table

variable {α : Type u} {β : Type v} [Ord α] [Std.TransOrd α]

theorem setEntry_of_lt {k : α} (v : β) {l : List (α × β)}
    (h : ∀ p ∈ l, compare p.1 k = .lt) : setEntry k v l = l ++ [(k, v)] := by
  induction l with
  | nil => rfl
  | cons p rest ih =>
    obtain ⟨hp, hrest⟩ := List.forall_mem_cons.mp h
    rw [setEntry, Std.OrientedCmp.gt_iff_lt.mpr hp]
    exact congrArg (p :: ·) (ih hrest)

variable [Std.LawfulEqOrd α]

theorem entries_ofList {l : List (α × β)} (h : l.Pairwise fun p q => compare p.1 q.1 = .lt) :
    (ofList l).entries = l := by
  induction l using List.reverseRecOn with
  | nil => rfl
  | append_singleton before p ih =>
    obtain ⟨hbefore, _, hlast⟩ := List.pairwise_append.mp h
    rw [ofList, List.foldl_append, List.foldl_cons, List.foldl_nil, insert]
    change setEntry p.1 p.2 (ofList before).entries = _
    rw [ih hbefore]
    exact setEntry_of_lt p.2 fun q hq => hlast q hq p (List.mem_singleton_self p)

theorem ofList_entries (t : Table α β) : ofList t.entries = t := by
  obtain ⟨l, h⟩ := t
  rw [mk.injEq]
  exact entries_ofList h

end Table

/-! ## Times, interfaces and nodes -/

/-- The number of a cell fits into 64 bits. -/
def CellId.InRange (id : CellId) : Prop := id.number < CellId.bound

theorem CellId.decode_encode {id : CellId} (h : id.InRange) : decode? id.encode = some id := by
  rw [decode?, encode, Json.nat?_nat h]
  rfl

namespace Time

def InRange : Time → Prop
  | earliest => True
  | tick n => n < Nat.pow 2 64
  | latest => True

theorem decode_encode (r : Json.Reading) {t : Time} (h : t.InRange) :
    decode? r t.encode = some t := by
  cases t with
  | earliest => rfl
  | latest => rfl
  | tick n =>
    change (Json.nat n).nat?.map tick = some (tick n)
    rw [Json.nat?_nat h]
    rfl

end Time

theorem Link.decode_encode (p : Link) : decode? p.encode = some p := rfl

theorem Interface.decode?_of_fields {c : Interface} {v number imports exports : Json}
    (hfields : v.fields? ["id", "imports", "exports"] =
      some [some number, some imports, some exports])
    (hid : CellId.decode? number = some c.id)
    (himports : imports.list? Link.decode? = some c.imports)
    (hexports : exports.list? Link.decode? = some c.exports) : decode? v = some c := by
  rw [decode?, hfields]
  simp only [Option.bind_eq_bind, Option.bind_some, hid, Json.listOrEmpty?, himports, hexports]
  rfl

theorem Interface.decode_encode {c : Interface} (h : c.id.InRange) : decode? c.encode = some c :=
  decode?_of_fields rfl (CellId.decode_encode h)
    (Json.list?_array fun p _ => Link.decode_encode p)
    (Json.list?_array fun p _ => Link.decode_encode p)

namespace Node

structure InRange (n : Node) : Prop where
  id : n.id.InRange
  inputs : ∀ p ∈ n.inputs, p.1.InRange
  outputs : ∀ p ∈ n.outputs, p.1.InRange

theorem decodeEnd_encodeEnd {p : CellId × Link} (h : p.1.InRange) :
    decodeEnd? (encodeEnd p) = some p := by
  rw [encodeEnd, decodeEnd?, CellId.decode_encode h, Link.decode_encode]
  rfl

theorem decode?_of_fields {n : Node} {v number inputs outputs : Json}
    (hfields : v.fields? ["id", "inputs", "outputs"] =
      some [some number, some inputs, some outputs])
    (hid : CellId.decode? number = some n.id)
    (hinputs : inputs.list? decodeEnd? = some n.inputs)
    (houtputs : outputs.list? decodeEnd? = some n.outputs) : decode? v = some n := by
  rw [decode?, hfields]
  simp only [Option.bind_eq_bind, Option.bind_some, hid, hinputs, houtputs]
  rfl

theorem decode_encode {n : Node} (h : n.InRange) : decode? n.encode = some n :=
  decode?_of_fields rfl (CellId.decode_encode h.id)
    (Json.list?_array fun p hp => decodeEnd_encodeEnd (h.inputs p hp))
    (Json.list?_array fun p hp => decodeEnd_encodeEnd (h.outputs p hp))

end Node

theorem Program.decode_encode (p : Program Json) : decode? p.encode = some p := by
  have hfields : p.encode.fields? ["imports", "exports", "code", "result_name",
      "has_top_level_return"] =
      some [some (.array (p.imports.map Link.encode)), some (.array (p.exports.map Link.encode)),
        some p.code, some (.ofString? p.resultName), some (.bool p.topLevelReturn)] := rfl
  have hname : Json.optional? Json.string? (some (.ofString? p.resultName)) =
      some p.resultName := by
    cases p.resultName <;> rfl
  rw [decode?, hfields]
  simp only [Option.bind_eq_bind, Option.bind_some, Json.listOrEmpty?, hname,
    Json.list?_array fun p _ => Link.decode_encode p]
  rfl

/-! ## Faults and results -/

namespace Fault

theorem decodeNames_encodeNames (names : List Name) :
    decodeNames? (encodeNames names) = some names :=
  Json.list?_array fun _ _ => rfl

theorem decode_encode (r : Json.Reading) (f : Fault) : decode? r f.encode = some f := by
  have hne : "kind" ≠ "detail" := by decide
  cases f with
  | compile message =>
    rw [encode, decode?, Json.tagged?_pair r hne]
    rfl
  | topLevelReturn =>
    rw [encode, decode?, Json.tagged?_tag r hne]
    rfl
  | multipleDefinitions names =>
    rw [encode, decode?, Json.tagged?_pair r hne]
    change (decodeNames? (encodeNames names)).bind _ = _
    rw [decodeNames_encodeNames]
    rfl
  | cyclicDependency paths =>
    rw [encode, decode?, Json.tagged?_pair r hne]
    change ((Json.array (paths.map encodeNames)).list? decodeNames?).bind _ = _
    rw [Json.list?_array fun names _ => decodeNames_encodeNames names]
    rfl
  | runtime message =>
    rw [encode, decode?, Json.tagged?_pair r hne]
    rfl

end Fault

theorem Bindings.decode_encode (b : Bindings Json) : decode? (encode b) = some b :=
  congrArg some (Table.ofList_entries b)

namespace Result

theorem decode?_returned {r : Json.Reading} {v : Json} {bindings : Option (Bindings Json)}
    (h : Json.optional? Bindings.decode? (some v) = some bindings) :
    decode? r (.object [("type", .string "return"), ("value", v)]) =
      some (returned bindings) := by
  rw [decode?, Json.tagged?_pair r (by decide)]
  change (Json.optional? Bindings.decode? (some v)).bind _ = _
  rw [h]
  rfl

theorem decode?_threw {r : Json.Reading} {v : Json} {fault : Fault}
    (h : Fault.decode? r v = some fault) :
    decode? r (.object [("type", .string "throw"), ("value", v)]) = some (threw fault) := by
  rw [decode?, Json.tagged?_pair r (by decide)]
  change (Fault.decode? r v).bind _ = _
  rw [h]
  rfl

theorem decode_encode (r : Json.Reading) (x : Result Json) : decode? r x.encode = some x := by
  cases x with
  | returned bindings =>
    cases bindings with
    | none => exact decode?_returned rfl
    | some b => exact decode?_returned (congrArg (Option.map some) (Bindings.decode_encode b))
  | threw fault => exact decode?_threw (Fault.decode_encode r fault)

end Result

/-! ## Snapshots and events -/

namespace Snapshot

structure InRange (s : Snapshot Json) : Prop where
  id : s.id.InRange
  answered : s.answered.InRange
  computed : s.computed.InRange

theorem decode?_of_fields {r : Json.Reading} {s : Snapshot Json}
    {v number answered computed result : Json}
    (hfields : v.fields? ["id", "last_run", "last_internal_run", "running", "waiting", "result"] =
      some [some number, some answered, some computed, some (.bool s.running),
        some (.bool s.waiting), some result])
    (hid : CellId.decode? number = some s.id) (hanswered : Time.decode? r answered = some s.answered)
    (hcomputed : Time.decode? r computed = some s.computed)
    (hresult : Result.decode? r result = some s.result) : decode? r v = some s := by
  rw [decode?, hfields]
  simp only [Option.bind_eq_bind, Option.bind_some, hid, hanswered, hcomputed, hresult]
  rfl

theorem decode_encode (r : Json.Reading) {s : Snapshot Json} (h : s.InRange) :
    decode? r s.encode = some s :=
  decode?_of_fields rfl (CellId.decode_encode h.id) (Time.decode_encode r h.answered)
    (Time.decode_encode r h.computed) (Result.decode_encode r s.result)

end Snapshot

namespace Event

def InRange : Event Json → Prop
  | created s => s.InRange
  | updated s => s.InRange
  | removed id => id.InRange

theorem decode?_created {v : Json} {s : Snapshot Json}
    (h : Snapshot.decode? .deferred v = some s) :
    decode? (.object [("type", .string "created"), ("snapshot", v)]) = some (created s) := by
  change (Snapshot.decode? .deferred v).bind _ = _
  rw [h]
  rfl

theorem decode?_updated {v : Json} {s : Snapshot Json}
    (h : Snapshot.decode? .deferred v = some s) :
    decode? (.object [("type", .string "updated"), ("snapshot", v)]) = some (updated s) := by
  change (Snapshot.decode? .deferred v).bind _ = _
  rw [h]
  rfl

theorem decode?_removed {v : Json} {id : CellId} (h : CellId.decode? v = some id) :
    decode? (.object [("type", .string "removed"), ("id", v)]) = some (removed id) := by
  change (CellId.decode? v).bind _ = _
  rw [h]
  rfl

/-- The fields of an event are set aside until its type is known. -/
theorem decode_encode {e : Event Json} (h : e.InRange) : decode? e.encode = some e := by
  cases e with
  | created s => exact decode?_created (Snapshot.decode_encode .deferred h)
  | updated s => exact decode?_updated (Snapshot.decode_encode .deferred h)
  | removed id => exact decode?_removed (CellId.decode_encode h)

end Event

/-! ## All together -/

/-- What is written is read back as it was, at once or after it was set aside. So different results have
different forms, a run without bindings, one with an empty table of them and a fault without details
among them, and so have different times and numbers, up to the largest of 64 bits. -/
theorem serialized_forms_read_back (r : Json.Reading) :
    (∀ t : Time, t.InRange → Time.decode? r t.encode = some t) ∧
    (∀ f : Fault, Fault.decode? r f.encode = some f) ∧
    (∀ x : Result Json, Result.decode? r x.encode = some x) ∧
    (∀ s : Snapshot Json, s.InRange → Snapshot.decode? r s.encode = some s) ∧
    (∀ e : Event Json, e.InRange → Event.decode? e.encode = some e) ∧
    (∀ p : Link, Link.decode? p.encode = some p) ∧
    (∀ c : Interface, c.id.InRange → Interface.decode? c.encode = some c) ∧
    (∀ n : Node, n.InRange → Node.decode? n.encode = some n) ∧
    (∀ p : Program Json, Program.decode? p.encode = some p) ∧
    (∀ x y : Result Json, x.encode = y.encode → x = y) ∧
    (∀ s t : Time, s.InRange → t.InRange → s.encode = t.encode → s = t) ∧
    (∀ i j : CellId, i.InRange → j.InRange → i.encode = j.encode → i = j) :=
  ⟨fun _ => Time.decode_encode r, Fault.decode_encode r, Result.decode_encode r,
    fun _ => Snapshot.decode_encode r, fun _ => Event.decode_encode, Link.decode_encode,
    fun _ => Interface.decode_encode, fun _ => Node.decode_encode, Program.decode_encode,
    fun _ _ => Json.eq_of_read_back (Result.decode_encode .direct _) (Result.decode_encode _ _),
    fun _ _ hs ht => Json.eq_of_read_back (Time.decode_encode .direct hs) (Time.decode_encode _ ht),
    fun _ _ hi hj => Json.eq_of_read_back (CellId.decode_encode hi) (CellId.decode_encode hj)⟩

/-- A cell with the largest number, read at the largest tick, has a fault without details. -/
theorem serialized_forms_read_back_largest :
    let largest := Nat.pow 2 64 - 1
    let s : Snapshot Json := ⟨⟨largest⟩, .tick largest, .latest, false, true, .threw .topLevelReturn⟩
    let c : Interface := ⟨s.id, [Link.same "x"], []⟩
    let n : Node := ⟨s.id, [(s.id, Link.same "x")], []⟩
    (s.InRange ∧ s.answered.InRange ∧ n.InRange) ∧
      Snapshot.decode? .direct s.encode = some s ∧
      Event.decode? (Event.updated s).encode = some (.updated s) ∧
      Time.decode? .direct s.answered.encode = some s.answered ∧
      Interface.decode? c.encode = some c ∧ Node.decode? n.encode = some n ∧
      (Result.returned none : Result Json).encode ≠ (Result.returned (some ∅)).encode ∧
      s.answered.encode ≠ s.computed.encode ∧ s.id.encode ≠ (⟨0⟩ : CellId).encode := by
  intro largest s c n
  have hid : s.id.InRange := Nat.sub_lt (by decide) (by decide)
  have hzero : (⟨0⟩ : CellId).InRange := Nat.pow_pos (by decide)
  have hs : s.InRange := ⟨hid, hid, trivial⟩
  have hn : n.InRange := ⟨hid, by simpa [n] using hid, by simp [n]⟩
  obtain ⟨htime, _, _, hsnapshot, hevent, _, hinterface, hnode, _, hresult, htimes, hids⟩ :=
    serialized_forms_read_back .direct
  refine ⟨⟨hs, hs.answered, hn⟩, hsnapshot s hs, hevent _ hs, htime _ hs.answered,
    hinterface c hid, hnode n hn, fun h => ?_, fun h => ?_, fun h => ?_⟩
  · exact nomatch hresult _ _ h
  · exact nomatch htimes _ _ hs.answered hs.computed h
  · have hnumber : largest = 0 := congrArg CellId.number (hids _ _ hid hzero h)
    exact absurd hnumber (by decide)

end Recalc
