import Mathlib.Data.List.Nodup
import TaskLoop.Queue.Arena

namespace TaskLoop.Arena

variable {α : Type} {a b : Arena α} {id other : TaskId} {r : α}

def slot? (a : Arena α) (id : TaskId) : Option (Slot α) :=
  if id.slot = 0 then none else a.slots[id.slot - 1]?

/-- The slot of the id has been emptied since the id was given out. -/
def Spent (a : Arena α) (id : TaskId) : Prop :=
  ∃ s, a.slot? id = some s ∧
    (id.version < s.version ∨ id.version = s.version ∧ s.record = none)

def Known (a : Arena α) (id : TaskId) : Prop := (∃ r, a.get? id = some r) ∨ a.Spent id

structure WellFormed (a : Arena α) : Prop where
  free : ∀ i ∈ a.free, ∃ v, a.slots[i]? = some ⟨v, none⟩
  free_nodup : a.free.Nodup

theorem get?_eq_some : a.get? id = some r ↔ a.slot? id = some ⟨id.version, some r⟩ := by
  unfold get? position? slot?
  by_cases h0 : id.slot = 0
  · simp [h0]
  · cases hs : a.slots[id.slot - 1]? with
    | none => simp [h0]
    | some s =>
      obtain ⟨v, record⟩ := s
      by_cases hv : v = id.version
      · simp [h0, hv, Nat.pos_of_ne_zero h0, hs]
      · simp [h0, hv]

theorem Spent.get?_eq_none (h : a.Spent id) : a.get? id = none := by
  obtain ⟨s, hs, hv⟩ := h
  cases hg : a.get? id with
  | none => rfl
  | some r =>
    rw [get?_eq_some, hs, Option.some.injEq] at hg
    subst hg
    simp at hv

theorem known_of_get? (h : a.get? id = some r) : a.Known id := .inl ⟨r, h⟩

theorem get?_empty (id : TaskId) : ({} : Arena α).get? id = none := by simp [get?, position?]

theorem wellFormed_empty : ({} : Arena α).WellFormed := ⟨nofun, List.nodup_nil⟩

theorem slot?_insert (ha : a.WellFormed) (r : α) (id : TaskId) :
    (a.insert r).2.slot? id =
      if id.slot = (a.insert r).1.slot then some ⟨(a.insert r).1.version, some r⟩
      else a.slot? id := by
  by_cases h0 : id.slot = 0
  · have : (a.insert r).1.slot ≠ 0 := by unfold insert; split <;> simp
    simp [slot?, h0, Ne.symm this]
  · cases hf : a.free with
    | nil =>
      by_cases hi : id.slot = a.slots.size + 1
      · simp [insert, hf, slot?, hi]
      · have : id.slot - 1 ≠ a.slots.size := by omega
        simp [insert, hf, slot?, h0, hi, Array.getElem?_push, this]
    | cons i rest =>
      obtain ⟨v, hv⟩ := ha.free i (by simp [hf])
      by_cases hi : id.slot = i + 1
      · have hlt : i < a.slots.size := (Array.getElem?_eq_some_iff.1 hv).1
        simp [insert, hf, slot?, hi, hlt]
      · have : i ≠ id.slot - 1 := by omega
        simp [insert, hf, slot?, h0, hi, Array.getElem?_setIfInBounds_ne this]

theorem get?_insert_self (ha : a.WellFormed) (r : α) :
    (a.insert r).2.get? (a.insert r).1 = some r := by
  rw [get?_eq_some, slot?_insert ha]
  simp

theorem slot?_fst_insert (ha : a.WellFormed) (r : α) :
    a.slot? (a.insert r).1 = none ∨
      ∃ v, a.slot? (a.insert r).1 = some ⟨v, none⟩ ∧ (a.insert r).1.version = v + 1 := by
  cases hf : a.free with
  | nil => left; simp [insert, hf, slot?]
  | cons i rest =>
    obtain ⟨v, hv⟩ := ha.free i (by simp [hf])
    right
    exact ⟨v, by simp [insert, hf, slot?, hv], by simp [insert, hf, hv]⟩

theorem slot?_congr (a : Arena α) (h : id.slot = other.slot) : a.slot? id = a.slot? other := by
  simp [slot?, h]

/-- An id that has been given out is not given out again. -/
theorem fst_insert_ne (ha : a.WellFormed) (h : a.Known id) (r : α) : (a.insert r).1 ≠ id := by
  rintro rfl
  obtain ⟨s, hs⟩ : ∃ s, a.slot? (a.insert r).1 = some s ∧ (a.insert r).1.version ≤ s.version := by
    obtain ⟨x, hx⟩ | ⟨s, hs, hv⟩ := h
    · exact ⟨_, get?_eq_some.1 hx, Nat.le_refl _⟩
    · exact ⟨s, hs, by omega⟩
  obtain hn | ⟨v, hv, hlt⟩ := slot?_fst_insert ha r
  · simp [hn] at hs
  · obtain ⟨heq, hle⟩ := hs
    rw [hv, Option.some.injEq] at heq
    subst heq
    simp only at hle
    omega

theorem get?_insert_of_get? (ha : a.WellFormed) {x : α} (h : a.get? id = some x) (r : α) :
    (a.insert r).2.get? id = some x := by
  rw [get?_eq_some] at h ⊢
  rw [slot?_insert ha, if_neg, h]
  intro he
  have hs := slot?_congr a he
  obtain hn | ⟨v, hv, _⟩ := slot?_fst_insert ha r
  · simp [← hs, h] at hn
  · simp [← hs, h] at hv

theorem get?_insert (ha : a.WellFormed) (r : α) {x : α}
    (h : (a.insert r).2.get? id = some x) :
    (id = (a.insert r).1 ∧ x = r) ∨ a.get? id = some x := by
  rw [get?_eq_some, slot?_insert ha] at h
  split at h
  · next he =>
    left
    simp only [Option.some.injEq, Slot.mk.injEq] at h
    generalize (a.insert r).1 = n at h he
    obtain ⟨i, v⟩ := id
    obtain ⟨j, u⟩ := n
    simp_all
  · exact .inr (get?_eq_some.2 h)

theorem Spent.insert (ha : a.WellFormed) (h : a.Spent id) (r : α) : (a.insert r).2.Spent id := by
  obtain ⟨s, hs, hv⟩ := h
  by_cases he : id.slot = (a.insert r).1.slot
  · refine ⟨_, by rw [slot?_insert ha, if_pos he], ?_⟩
    rw [slot?_congr a he] at hs
    obtain hn | ⟨v, hsv, hlt⟩ := slot?_fst_insert ha r
    · simp [hn] at hs
    · rw [hsv, Option.some.injEq] at hs
      subst hs
      simp only at hv ⊢
      omega
  · exact ⟨s, by rw [slot?_insert ha, if_neg he, hs], hv⟩

theorem WellFormed.insert (ha : a.WellFormed) (r : α) : (a.insert r).2.WellFormed := by
  cases hf : a.free with
  | nil => constructor <;> simp [Arena.insert, hf]
  | cons i rest =>
    have hnd : i ∉ rest ∧ rest.Nodup := by simpa [hf] using ha.free_nodup
    constructor
    · intro j hj
      have hj : j ∈ rest := by simpa [Arena.insert, hf] using hj
      have hne : i ≠ j := fun h => hnd.1 (h ▸ hj)
      obtain ⟨v, hv⟩ := ha.free j (by simp [hf, hj])
      exact ⟨v, by simp [Arena.insert, hf, Array.getElem?_setIfInBounds_ne hne, hv]⟩
    · simpa [Arena.insert, hf] using hnd.2

theorem remove?_eq_some (h : a.remove? id = some (r, b)) :
    a.get? id = some r ∧
      b = ⟨a.slots.setIfInBounds (id.slot - 1) ⟨id.version + 1, none⟩, (id.slot - 1) :: a.free⟩ := by
  unfold remove? at h
  simp only [Option.map_eq_some_iff, Prod.mk.injEq] at h
  obtain ⟨x, hx, rfl, rfl⟩ := h
  exact ⟨hx, rfl⟩

theorem slot?_remove? (h : a.remove? id = some (r, b)) (other : TaskId) :
    b.slot? other = if other.slot = id.slot then some ⟨id.version + 1, none⟩ else a.slot? other := by
  obtain ⟨hg, rfl⟩ := remove?_eq_some h
  rw [get?_eq_some] at hg
  by_cases hi : id.slot = 0
  · simp [slot?, hi] at hg
  · have hlt : id.slot - 1 < a.slots.size := by
      simp only [slot?, hi, ↓reduceIte] at hg
      exact (Array.getElem?_eq_some_iff.1 hg).1
    by_cases he : other.slot = id.slot
    · simp [slot?, he, hi, hlt]
    · by_cases ho : other.slot = 0
      · simp [slot?, ho, Ne.symm hi]
      · have : id.slot - 1 ≠ other.slot - 1 := by omega
        simp [slot?, he, ho, Array.getElem?_setIfInBounds_ne this]

theorem get?_remove?_of_ne (h : a.remove? id = some (r, b)) (hne : other ≠ id) :
    b.get? other = a.get? other := by
  apply Option.ext
  intro x
  rw [get?_eq_some, get?_eq_some, slot?_remove? h]
  split
  · next he =>
    have hg := get?_eq_some.1 (remove?_eq_some h).1
    have hv : id.version ≠ other.version := by
      intro hv
      obtain ⟨i, v⟩ := id
      obtain ⟨j, u⟩ := other
      exact hne (by simp_all)
    simp [slot?_congr a he, hg, hv]
  · rfl

theorem spent_of_remove? (h : a.remove? id = some (r, b)) : b.Spent id :=
  ⟨_, by rw [slot?_remove? h, if_pos rfl], .inl (Nat.lt_succ_self _)⟩

theorem Spent.remove? (hs : a.Spent other) (h : a.remove? id = some (r, b)) : b.Spent other := by
  obtain ⟨s, hs, hv⟩ := hs
  by_cases he : other.slot = id.slot
  · refine ⟨_, by rw [slot?_remove? h, if_pos he], .inl ?_⟩
    rw [slot?_congr a he, get?_eq_some.1 (remove?_eq_some h).1, Option.some.injEq] at hs
    subst hs
    simp only at hv ⊢
    omega
  · exact ⟨s, by rw [slot?_remove? h, if_neg he, hs], hv⟩

theorem WellFormed.remove? (ha : a.WellFormed) (h : a.remove? id = some (r, b)) :
    b.WellFormed := by
  obtain ⟨hg, rfl⟩ := remove?_eq_some h
  rw [get?_eq_some] at hg
  have hi : id.slot ≠ 0 := by rintro h0; simp [slot?, h0] at hg
  simp only [slot?, hi, ↓reduceIte] at hg
  have hlt := (Array.getElem?_eq_some_iff.1 hg).1
  have hnot : id.slot - 1 ∉ a.free := by
    intro hm
    obtain ⟨v, hv⟩ := ha.free _ hm
    simp [hg] at hv
  constructor
  · intro i hm
    obtain rfl | hm := List.mem_cons.1 hm
    · exact ⟨id.version + 1, by simp [hlt]⟩
    · have hne : id.slot - 1 ≠ i := fun h => hnot (h ▸ hm)
      obtain ⟨v, hv⟩ := ha.free i hm
      exact ⟨v, by simp [Array.getElem?_setIfInBounds_ne hne, hv]⟩
  · exact List.nodup_cons.2 ⟨hnot, ha.free_nodup⟩

theorem slot?_modify (a : Arena α) (id : TaskId) (f : α → α) (other : TaskId) :
    (a.modify id f).slot? other = (a.slot? other).map fun s =>
      if other.slot = id.slot ∧ s.version = id.version then { s with record := s.record.map f }
      else s := by
  unfold modify position?
  by_cases ho : other.slot = 0
  · split <;> simp [slot?, ho]
  · split
    · next hn =>
      simp only [ite_eq_right_iff, reduceCtorEq, imp_false, not_and] at hn
      cases hs : a.slot? other with
      | none => simp
      | some s =>
        simp only [Option.map_some, Option.some.injEq]
        rw [if_neg]
        rintro ⟨he, hv⟩
        simp only [slot?, ho, ↓reduceIte] at hs
        rw [he] at hs ho
        exact hn (Nat.pos_of_ne_zero ho) (by simp [hs, hv])
    · next i hi =>
      simp only [Option.ite_none_right_eq_some, Option.some.injEq] at hi
      obtain ⟨⟨hpos, hv⟩, rfl⟩ := hi
      by_cases he : other.slot = id.slot
      · have hi : id.slot ≠ 0 := Nat.pos_iff_ne_zero.1 hpos
        cases hs : a.slots[id.slot - 1]? with
        | none => simp [slot?, he, hi, Array.getElem?_modify, hs]
        | some s =>
          have : s.version = id.version := by simpa [hs] using hv
          simp [slot?, he, hi, Array.getElem?_modify, hs, this]
      · have : id.slot - 1 ≠ other.slot - 1 := by omega
        simp [slot?, ho, he, Array.getElem?_modify, this]

theorem get?_modify (a : Arena α) (id : TaskId) (f : α → α) (other : TaskId) :
    (a.modify id f).get? other = if other = id then (a.get? id).map f else a.get? other := by
  apply Option.ext
  intro x
  rw [get?_eq_some, slot?_modify]
  split
  · next he =>
    subst he
    simp only [Option.map_eq_some_iff, get?_eq_some]
    constructor
    · rintro ⟨s, hs, h⟩
      split at h
      · obtain ⟨v, record⟩ := s
        simp only [Slot.mk.injEq, Option.map_eq_some_iff] at h
        obtain ⟨rfl, y, rfl, rfl⟩ := h
        exact ⟨y, hs, rfl⟩
      · next hn => subst h; simp at hn
    · rintro ⟨y, hs, rfl⟩
      exact ⟨_, hs, by simp⟩
  · next hne =>
    rw [get?_eq_some]
    obtain ⟨i, v⟩ := id
    obtain ⟨j, u⟩ := other
    cases hs : a.slot? ⟨j, u⟩ with
    | none => simp
    | some s =>
      obtain ⟨v', record⟩ := s
      simp only [Option.map_some, Option.some.injEq]
      split
      · next h =>
        have : v' ≠ u := by rintro rfl; exact hne (by simp_all)
        simp [this]
      · rfl

theorem Spent.modify (h : a.Spent other) (id : TaskId) (f : α → α) :
    (a.modify id f).Spent other := by
  obtain ⟨s, hs, hv⟩ := h
  refine ⟨_, by rw [slot?_modify, hs, Option.map_some], ?_⟩
  split
  · obtain hv | ⟨hv, hr⟩ := hv
    · exact .inl hv
    · exact .inr ⟨hv, by simp [hr]⟩
  · exact hv

theorem WellFormed.modify (ha : a.WellFormed) (id : TaskId) (f : α → α) :
    (a.modify id f).WellFormed := by
  unfold Arena.modify
  split
  · exact ha
  · next i hi =>
    refine ⟨fun j hj => ?_, ha.free_nodup⟩
    obtain ⟨v, hv⟩ := ha.free j hj
    by_cases hij : i = j
    · exact ⟨v, by simp [Array.getElem?_modify, hij, hv]⟩
    · exact ⟨v, by simp [Array.getElem?_modify, hij, hv]⟩

theorem get?_of_getElem {i : Nat} (hi : i < a.slots.size) (hr : (a.slots[i]).record = some r) :
    a.get? ⟨i + 1, (a.slots[i]).version⟩ = some r := by
  rw [get?_eq_some]
  simp only [slot?, Nat.add_eq_zero_iff, Nat.succ_ne_self, and_false, ↓reduceIte,
    Nat.add_sub_cancel, Array.getElem?_eq_getElem hi, ← hr]

theorem mem_records : r ∈ a.records ↔ ∃ id, a.get? id = some r := by
  simp only [records, List.mem_filterMap, Array.mem_toList_iff]
  constructor
  · rintro ⟨s, hs, hr⟩
    obtain ⟨i, hi, rfl⟩ := Array.mem_iff_getElem.1 hs
    exact ⟨_, get?_of_getElem hi hr⟩
  · rintro ⟨id, hid⟩
    rw [get?_eq_some] at hid
    by_cases h0 : id.slot = 0
    · simp [slot?, h0] at hid
    · simp only [slot?, h0, ↓reduceIte] at hid
      exact ⟨_, Array.mem_of_getElem? hid, rfl⟩

/-- What tells the ids of the records apart is different for each of them. -/
theorem nodup_filterMap_records {β : Type} {f : α → Option β}
    (h : ∀ id id' r r' b, a.get? id = some r → a.get? id' = some r' → f r = some b → f r' = some b →
      id = id') : (a.records.filterMap f).Nodup := by
  rw [records, List.filterMap_filterMap, List.Nodup, List.pairwise_filterMap,
    List.pairwise_iff_getElem]
  rintro i j hi hj hij b hb _ hb' rfl
  obtain ⟨r, hr, hfr⟩ := Option.bind_eq_some_iff.1 hb
  obtain ⟨r', hr', hfr'⟩ := Option.bind_eq_some_iff.1 hb'
  have heq := h _ _ r r' b (get?_of_getElem (by simpa using hi) (by simpa using hr))
    (get?_of_getElem (by simpa using hj) (by simpa using hr')) hfr hfr'
  simp only [TaskId.mk.injEq] at heq
  omega

def entries (a : Arena α) : List (TaskId × α) :=
  a.slots.toList.zipIdx.filterMap fun x => x.1.record.map fun r => (⟨x.2 + 1, x.1.version⟩, r)

theorem map_snd_entries (a : Arena α) : a.entries.map Prod.snd = a.records := by
  have hsnd : ∀ x : Slot α × Nat,
      ((x.1.record.map fun r => ((⟨x.2 + 1, x.1.version⟩, r) : TaskId × α)).map Prod.snd) =
        x.1.record := fun x => by
    rw [Option.map_map]
    exact Option.map_id'
  rw [entries, records, List.map_filterMap]
  simp only [hsnd]
  conv_rhs => rw [← List.zipIdx_map_fst 0 a.slots.toList, List.filterMap_map]
  rfl

theorem mem_entries {id : TaskId} : (id, r) ∈ a.entries ↔ a.get? id = some r := by
  simp only [entries, List.mem_filterMap, Option.map_eq_some_iff, Prod.mk.injEq]
  constructor
  · rintro ⟨⟨s, i⟩, hs, r', hr, rfl, rfl⟩
    obtain ⟨hi, hslot⟩ := List.mem_zipIdx' hs
    dsimp only at hr ⊢
    rw [hslot] at hr ⊢
    exact get?_of_getElem (by simpa using hi) (by simpa using hr)
  · intro hid
    rw [get?_eq_some] at hid
    by_cases h0 : id.slot = 0
    · simp [slot?, h0] at hid
    · simp only [slot?, h0, ↓reduceIte] at hid
      refine ⟨(⟨id.version, some r⟩, id.slot - 1), ?_, r, rfl, ?_, rfl⟩
      · rw [List.mem_zipIdx_iff_getElem?]
        simpa using hid
      · cases id
        simp only [TaskId.mk.injEq, and_true]
        simp only at h0
        omega

theorem nodup_entries (a : Arena α) : (a.entries.map Prod.fst).Nodup := by
  rw [entries, List.map_filterMap, List.Nodup, List.pairwise_filterMap, List.pairwise_iff_getElem]
  rintro i j hi hj hij id hid _ hid' rfl
  obtain ⟨_, hx, rfl⟩ := Option.map_eq_some_iff.1 hid
  obtain ⟨_, hx', heq⟩ := Option.map_eq_some_iff.1 hid'
  obtain ⟨r, _, rfl⟩ := Option.map_eq_some_iff.1 hx
  obtain ⟨r', _, rfl⟩ := Option.map_eq_some_iff.1 hx'
  simp only [List.getElem_zipIdx, TaskId.mk.injEq] at heq
  omega

end TaskLoop.Arena
