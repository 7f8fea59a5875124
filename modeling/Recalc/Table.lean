/-!
# Tables

A table is a finite map, kept as the list of its entries by strictly ascending key. The order is part
of the type, so two tables with the same look-ups are equal.
-/

namespace Recalc

structure Table (α : Type u) (β : Type v) [Ord α] where
  entries : List (α × β)
  ascending : entries.Pairwise fun p q => compare p.1 q.1 = .lt
  deriving DecidableEq

namespace Table

variable {α : Type u} {β : Type v} [Ord α]

/-- Entries with the value at one key set; the place of a new key is found by comparison. -/
def setEntry (k : α) (v : β) : List (α × β) → List (α × β)
  | [] => [(k, v)]
  | p :: rest =>
    match compare k p.1 with
    | .lt => (k, v) :: p :: rest
    | .eq => (k, v) :: rest
    | .gt => p :: setEntry k v rest

def valueAt? (k : α) : List (α × β) → Option β
  | [] => none
  | p :: rest => if compare k p.1 = .eq then some p.2 else valueAt? k rest

theorem mem_setEntry {k : α} {v : β} {l : List (α × β)} {p : α × β} (h : p ∈ setEntry k v l) :
    p = (k, v) ∨ p ∈ l := by
  induction l with
  | nil => simpa [setEntry] using h
  | cons q rest ih =>
    rw [setEntry] at h
    split at h
    · simpa using h
    · exact (List.mem_cons.mp h).imp id (List.mem_cons_of_mem q)
    · rcases List.mem_cons.mp h with rfl | h
      · exact Or.inr List.mem_cons_self
      · exact (ih h).imp id (List.mem_cons_of_mem q)

theorem ascending_setEntry [Std.TransOrd α] [Std.LawfulEqOrd α] (k : α) (v : β)
    {l : List (α × β)} (h : l.Pairwise fun p q => compare p.1 q.1 = .lt) :
    (setEntry k v l).Pairwise fun p q => compare p.1 q.1 = .lt := by
  induction l with
  | nil => simp [setEntry]
  | cons p rest ih =>
    obtain ⟨hp, hrest⟩ := List.pairwise_cons.mp h
    rw [setEntry]
    split
    · next hk =>
      refine List.pairwise_cons.mpr ⟨fun q hq => ?_, h⟩
      rcases List.mem_cons.mp hq with rfl | hq
      · exact hk
      · exact Std.TransCmp.lt_trans hk (hp q hq)
    · next hk =>
      have hkp : k = p.1 := Std.LawfulEqCmp.eq_of_compare hk
      exact List.pairwise_cons.mpr ⟨fun q hq => hkp ▸ hp q hq, hrest⟩
    · next hk =>
      refine List.pairwise_cons.mpr ⟨fun q hq => ?_, ih hrest⟩
      rcases mem_setEntry hq with rfl | hq
      · exact Std.OrientedCmp.gt_iff_lt.mp hk
      · exact hp q hq

def empty : Table α β := ⟨[], List.Pairwise.nil⟩

instance : EmptyCollection (Table α β) := ⟨empty⟩

instance : Inhabited (Table α β) := ⟨empty⟩

def get? (t : Table α β) (k : α) : Option β := valueAt? k t.entries

def contains (t : Table α β) (k : α) : Bool := (t.get? k).isSome

def keys (t : Table α β) : List α := t.entries.map Prod.fst

def values (t : Table α β) : List β := t.entries.map Prod.snd

def size (t : Table α β) : Nat := t.entries.length

def isEmpty (t : Table α β) : Bool := t.entries.isEmpty

def filter (keep : α → β → Bool) (t : Table α β) : Table α β :=
  ⟨t.entries.filter fun p => keep p.1 p.2, t.ascending.filter _⟩

def erase (t : Table α β) (k : α) : Table α β :=
  t.filter fun key _ => compare k key != .eq

theorem get?_empty (k : α) : (∅ : Table α β).get? k = none := rfl

variable [Std.LawfulEqOrd α]

theorem valueAt?_setEntry_self (k : α) (v : β) (l : List (α × β)) :
    valueAt? k (setEntry k v l) = some v := by
  induction l with
  | nil => simp [setEntry, valueAt?]
  | cons p rest ih =>
    rw [setEntry]
    split
    · simp [valueAt?]
    · simp [valueAt?]
    · next hk => rw [valueAt?, if_neg (by simp [hk]), ih]

theorem valueAt?_setEntry_of_ne {k j : α} (hjk : j ≠ k) (v : β) (l : List (α × β)) :
    valueAt? j (setEntry k v l) = valueAt? j l := by
  have hne : compare j k ≠ .eq := fun h => hjk (Std.LawfulEqCmp.eq_of_compare h)
  induction l with
  | nil => simp [setEntry, valueAt?, hne]
  | cons p rest ih =>
    rw [setEntry]
    split
    · rw [valueAt?, if_neg hne]
    · next hk =>
      have hkp : k = p.1 := Std.LawfulEqCmp.eq_of_compare hk
      rw [valueAt?, valueAt?, if_neg hne, if_neg (hkp ▸ hne)]
    · rw [valueAt?, valueAt?, ih]

theorem valueAt?_filter (keep : α → Bool) (k : α) (l : List (α × β)) :
    valueAt? k (l.filter fun p => keep p.1) = if keep k then valueAt? k l else none := by
  induction l with
  | nil => simp [valueAt?]
  | cons p rest ih =>
    rw [List.filter_cons]
    by_cases hk : compare k p.1 = .eq
    · have hkp : k = p.1 := Std.LawfulEqCmp.eq_of_compare hk
      subst hkp
      by_cases hp : keep p.1 = true <;> simp_all [valueAt?]
    · by_cases hp : keep p.1 = true <;> simp [valueAt?, hp, hk, ih]

theorem valueAt?_map {γ : Type w} (f : α → β → γ) (k : α) (l : List (α × β)) :
    valueAt? k (l.map fun p => (p.1, f p.1 p.2)) = (valueAt? k l).map (f k) := by
  induction l with
  | nil => rfl
  | cons p rest ih =>
    rw [List.map_cons, valueAt?, valueAt?]
    split
    · next hk => rw [Std.LawfulEqCmp.eq_of_compare hk, Option.map_some]
    · exact ih

@[simp] theorem get?_erase_self (t : Table α β) (k : α) : (t.erase k).get? k = none := by
  rw [get?, erase, filter, valueAt?_filter (fun key => compare k key != .eq)]
  simp

theorem get?_erase_of_ne (t : Table α β) {k j : α} (h : j ≠ k) :
    (t.erase k).get? j = t.get? j := by
  have hne : compare k j ≠ .eq := fun hc => h (Std.LawfulEqCmp.eq_of_compare hc).symm
  rw [get?, erase, filter, valueAt?_filter (fun key => compare k key != .eq), if_pos (by simpa using hne)]
  rfl

theorem valueAt?_eq_some_iff {l : List (α × β)}
    (h : l.Pairwise fun p q => compare p.1 q.1 = .lt) {k : α} {v : β} :
    valueAt? k l = some v ↔ (k, v) ∈ l := by
  induction l with
  | nil => simp [valueAt?]
  | cons p rest ih =>
    obtain ⟨hp, hrest⟩ := List.pairwise_cons.mp h
    rw [valueAt?]
    split
    · next hk =>
      have hkp : k = p.1 := Std.LawfulEqCmp.eq_of_compare hk
      subst hkp
      constructor
      · intro hv
        cases hv
        exact List.mem_cons_self
      · intro hm
        rcases List.mem_cons.mp hm with hm | hm
        · rw [← hm]
        · exact absurd (hp _ hm) (by simp)
    · next hk =>
      rw [ih hrest]
      refine ⟨List.mem_cons_of_mem p, fun hm => (List.mem_cons.mp hm).resolve_left ?_⟩
      rintro rfl
      exact hk Std.ReflCmp.compare_self

theorem get?_eq_some_iff (t : Table α β) {k : α} {v : β} :
    t.get? k = some v ↔ (k, v) ∈ t.entries :=
  valueAt?_eq_some_iff t.ascending

theorem mem_keys_iff (t : Table α β) {k : α} : k ∈ t.keys ↔ t.contains k = true := by
  rw [contains, Option.isSome_iff_exists, keys, List.mem_map]
  constructor
  · rintro ⟨⟨j, v⟩, hp, rfl⟩
    exact ⟨v, t.get?_eq_some_iff.mpr hp⟩
  · rintro ⟨v, hv⟩
    exact ⟨(k, v), t.get?_eq_some_iff.mp hv, rfl⟩

variable [Std.TransOrd α]

def insert (t : Table α β) (k : α) (v : β) : Table α β :=
  ⟨setEntry k v t.entries, ascending_setEntry k v t.ascending⟩

/-- Table of a list of entries; of two entries with one key the later counts. -/
def ofList (l : List (α × β)) : Table α β :=
  l.foldl (fun t p => t.insert p.1 p.2) ∅

@[simp] theorem get?_insert_self (t : Table α β) (k : α) (v : β) :
    (t.insert k v).get? k = some v :=
  valueAt?_setEntry_self k v t.entries

theorem get?_insert_of_ne (t : Table α β) {k j : α} (h : j ≠ k) (v : β) :
    (t.insert k v).get? j = t.get? j :=
  valueAt?_setEntry_of_ne h v t.entries

theorem entries_eq_of_forall_mem {l m : List (α × β)}
    (hl : l.Pairwise fun p q => compare p.1 q.1 = .lt)
    (hm : m.Pairwise fun p q => compare p.1 q.1 = .lt)
    (h : ∀ p, p ∈ l ↔ p ∈ m) : l = m := by
  induction l generalizing m with
  | nil =>
    cases m with
    | nil => rfl
    | cons q _ => exact absurd ((h q).mpr List.mem_cons_self) (by simp)
  | cons p l ih =>
    cases m with
    | nil => exact absurd ((h p).mp List.mem_cons_self) (by simp)
    | cons q m =>
      obtain ⟨hpl, hl⟩ := List.pairwise_cons.mp hl
      obtain ⟨hqm, hm'⟩ := List.pairwise_cons.mp hm
      have hpq : p = q := by
        rcases List.mem_cons.mp ((h p).mp List.mem_cons_self) with hpq | hp
        · exact hpq
        · rcases List.mem_cons.mp ((h q).mpr List.mem_cons_self) with hqp | hq
          · exact hqp.symm
          · have := Std.TransCmp.lt_trans (hqm p hp) (hpl q hq)
            simp at this
      subst hpq
      refine congrArg (p :: ·) (ih hl hm' fun r => ?_)
      constructor
      · intro hr
        refine (List.mem_cons.mp ((h r).mp (List.mem_cons_of_mem p hr))).resolve_left ?_
        rintro rfl
        exact absurd (hpl r hr) (by simp)
      · intro hr
        refine (List.mem_cons.mp ((h r).mpr (List.mem_cons_of_mem p hr))).resolve_left ?_
        rintro rfl
        exact absurd (hqm r hr) (by simp)

theorem ext {s t : Table α β} (h : ∀ k, s.get? k = t.get? k) : s = t := by
  obtain ⟨l, hl⟩ := s
  obtain ⟨m, hm⟩ := t
  have hlm : l = m := by
    refine entries_eq_of_forall_mem hl hm fun ⟨k, v⟩ => ?_
    rw [← valueAt?_eq_some_iff hl, ← valueAt?_eq_some_iff hm]
    exact iff_of_eq (congrArg (· = some v) (h k))
  subst hlm
  rfl

end Table

end Recalc
