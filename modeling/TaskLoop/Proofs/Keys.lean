import Mathlib.Logic.Function.Basic
import TaskLoop.Proofs.Change

namespace TaskLoop

namespace Registry

variable {α : Type} {r : Registry α} {a : α} {key key' : Nat}

structure WellFormed (r : Registry α) : Prop where
  nodup : r.vacant.Nodup
  vacant : ∀ key ∈ r.vacant, r.entries[key]? = some none

theorem get?_erase : (r.erase key).get? key' = if key' = key then none else r.get? key' := by
  rw [erase]
  split
  · simp only [get?, Array.getElem?_setIfInBounds]
    grind
  · next hempty =>
    split
    · next heq => rw [heq]; simpa using hempty
    · rfl

theorem get?_insert (h : r.WellFormed) :
    (r.insert a).2.get? key = if key = (r.insert a).1 then some a else r.get? key := by
  cases hv : r.vacant with
  | nil =>
    simp only [insert, hv, get?, Array.getElem?_push]
    split <;> rfl
  | cons free rest =>
    have hfree : r.entries[free]? = some none := h.vacant free (hv ▸ List.mem_cons_self ..)
    have hbound : free < r.entries.size := (Array.getElem?_eq_some_iff.1 hfree).1
    simp only [insert, hv, get?, Array.getElem?_setIfInBounds, hbound]
    grind

theorem get?_insert_fst (h : r.WellFormed) : r.get? (r.insert a).1 = none := by
  cases hv : r.vacant with
  | nil => simp [insert, hv, get?]
  | cons free rest =>
    simp only [insert, hv, get?, h.vacant free (hv ▸ List.mem_cons_self ..)]
    rfl

theorem WellFormed.insert (h : r.WellFormed) : (r.insert a).2.WellFormed := by
  cases hv : r.vacant with
  | nil =>
    simp only [Registry.insert, hv]
    exact ⟨List.nodup_nil, nofun⟩
  | cons free rest =>
    obtain ⟨hnot, hrest⟩ := List.nodup_cons.1 (hv ▸ h.nodup)
    simp only [Registry.insert, hv]
    refine ⟨hrest, fun key hm => ?_⟩
    have hne : free ≠ key := fun heq => hnot (heq ▸ hm)
    rw [Array.getElem?_setIfInBounds_ne hne]
    exact h.vacant key (hv ▸ List.mem_cons_of_mem _ hm)

theorem WellFormed.erase (h : r.WellFormed) : (r.erase key).WellFormed := by
  rw [Registry.erase]
  split
  · next hkept =>
    have hvacant : ∀ key' ∈ r.vacant, key ≠ key' := fun key' hm heq => by
      rw [get?, heq, h.vacant key' hm] at hkept
      cases hkept
    refine ⟨List.nodup_cons.2 ⟨fun hm => hvacant key hm rfl, h.nodup⟩, fun key' hm => ?_⟩
    obtain rfl | hm := List.mem_cons.1 hm
    · have hbound : key' < r.entries.size := by
        rw [get?] at hkept
        by_contra hout
        rw [Array.getElem?_eq_none (Nat.le_of_not_lt hout)] at hkept
        cases hkept
      rw [Array.getElem?_setIfInBounds_self, if_pos hbound]
    · rw [Array.getElem?_setIfInBounds_ne (hvacant key' hm)]
      exact h.vacant key' hm
  · exact h

def Updates (r r' : Registry α) : Prop :=
  r' = r ∨ (∃ a, r' = (r.insert a).2) ∨ ∃ key, r' = r.erase key

/-- A key that holds something before and after holds the same. -/
theorem Updates.get?_eq {r' : Registry α} (h : r.Updates r') (hr : r.WellFormed)
    (hbefore : (r.get? key).isSome) (hafter : (r'.get? key).isSome) : r'.get? key = r.get? key := by
  obtain rfl | ⟨a, rfl⟩ | ⟨key', rfl⟩ := h
  · rfl
  · have hne : key ≠ (r.insert a).1 := by
      rintro rfl
      rw [get?_insert_fst hr] at hbefore
      cases hbefore
    rw [get?_insert hr, if_neg hne]
  · have hne : key ≠ key' := by
      rintro rfl
      rw [get?_erase, if_pos rfl] at hafter
      cases hafter
    rw [get?_erase, if_neg hne]

/-- Each key that holds a value is in one place: in a stack, or with one of those who wait. -/
structure Tally {X : Type} (r : Registry α) (stack : List Nat) (waiting : X → Option Nat) :
    Prop where
  wellFormed : r.WellFormed
  occupied : ∀ key, (r.get? key).isSome ↔ key ∈ stack ∨ ∃ x, waiting x = some key
  nodup : stack.Nodup
  apart : ∀ x key, waiting x = some key → key ∉ stack
  single : ∀ x y key, waiting x = some key → waiting y = some key → x = y

namespace Tally

variable {X : Type} {stack : List Nat} {waiting : X → Option Nat} {x : X}

theorem not_mem (h : r.Tally stack waiting) (hkey : r.get? key = none) :
    key ∉ stack ∧ ∀ x, waiting x ≠ some key := by
  have hempty : ¬ (r.get? key).isSome := by simp [hkey]
  rw [h.occupied, not_or, not_exists] at hempty
  exact hempty

section

variable [DecidableEq X]

theorem insert (h : r.Tally stack waiting) (hx : waiting x = none) :
    (r.insert a).2.Tally stack (Function.update waiting x (some (r.insert a).1)) := by
  obtain ⟨hstack, hwaiting⟩ := h.not_mem (get?_insert_fst (a := a) h.wellFormed)
  refine ⟨h.wellFormed.insert, fun key => ?_, h.nodup, fun y key hy => ?_, fun y z key hy hz => ?_⟩
  · have hupdate : (∃ y, Function.update waiting x (some (r.insert a).1) y = some key) ↔
        key = (r.insert a).1 ∨ ∃ y, waiting y = some key := by
      constructor
      · rintro ⟨y, hy⟩
        rw [Function.update_apply] at hy
        split at hy
        · exact .inl (Option.some.inj hy).symm
        · exact .inr ⟨y, hy⟩
      · rintro (rfl | ⟨y, hy⟩)
        · exact ⟨x, Function.update_self ..⟩
        · refine ⟨y, (Function.update_of_ne ?_ ..).trans hy⟩
          rintro rfl
          cases hx.symm.trans hy
    rw [get?_insert h.wellFormed, hupdate, or_left_comm, ← h.occupied]
    split
    · next heq => simp [heq]
    · next hne => simp [hne]
  · rw [Function.update_apply] at hy
    split at hy
    · cases hy
      exact hstack
    · exact h.apart y key hy
  · rw [Function.update_apply] at hy hz
    split at hy <;> split at hz
    · next hy' hz' => rw [hy', hz']
    · cases hy
      exact absurd hz (hwaiting z)
    · cases hz
      exact absurd hy (hwaiting y)
    · exact h.single y z key hy hz

theorem push (h : r.Tally stack waiting) (hx : waiting x = some key) :
    r.Tally (key :: stack) (Function.update waiting x none) := by
  have hupdate : ∀ {y key'}, Function.update waiting x none y = some key' ↔
      y ≠ x ∧ waiting y = some key' := by
    intro y key'
    rw [Function.update_apply]
    split
    · next heq => simp [heq]
    · next hne => simp [hne]
  refine ⟨h.wellFormed, fun key' => ?_, List.nodup_cons.2 ⟨h.apart x key hx, h.nodup⟩,
    fun y key' hy => ?_, fun y z key' hy hz => ?_⟩
  · have hwaiting : (∃ y, waiting y = some key') ↔
        key' = key ∨ ∃ y, Function.update waiting x none y = some key' := by
      constructor
      · rintro ⟨y, hy⟩
        by_cases hne : y = x
        · subst hne
          exact .inl (Option.some.inj (hy.symm.trans hx))
        · exact .inr ⟨y, hupdate.2 ⟨hne, hy⟩⟩
      · rintro (rfl | ⟨y, hy⟩)
        · exact ⟨x, hx⟩
        · exact ⟨y, (hupdate.1 hy).2⟩
    rw [h.occupied, hwaiting, List.mem_cons, or_left_comm, or_assoc]
  · obtain ⟨hne, hy⟩ := hupdate.1 hy
    rw [List.mem_cons, not_or]
    refine ⟨?_, h.apart y key' hy⟩
    rintro rfl
    exact hne (h.single y x key' hy hx)
  · exact h.single y z key' (hupdate.1 hy).2 (hupdate.1 hz).2

end

theorem pop (h : r.Tally (key :: stack) waiting) : (r.erase key).Tally stack waiting := by
  obtain ⟨hkey, hstack⟩ := List.nodup_cons.1 h.nodup
  refine ⟨h.wellFormed.erase, fun key' => ?_, hstack,
    fun x key' hx hm => h.apart x key' hx (List.mem_cons_of_mem _ hm), h.single⟩
  rw [get?_erase]
  split
  · next heq =>
    subst heq
    refine ⟨nofun, ?_⟩
    rintro (hm | ⟨x, hx⟩)
    · exact absurd hm hkey
    · exact absurd (List.mem_cons_self ..) (h.apart x key' hx)
  · next hne => rw [h.occupied, List.mem_cons, or_iff_right hne]

/-- All who wait in one place leave it, and their keys go on the empty stack. -/
theorem sweep (h : r.Tally [] waiting) {P : X → Prop} [DecidablePred P] (hnodup : stack.Nodup)
    (hstack : ∀ key, key ∈ stack ↔ ∃ x, P x ∧ waiting x = some key) :
    r.Tally stack (fun x => if P x then none else waiting x) := by
  have hleft : ∀ {x key}, (if P x then none else waiting x) = some key ↔
      ¬ P x ∧ waiting x = some key := by
    intro x key
    split
    · next hP => simp [hP]
    · next hP => simp [hP]
  refine ⟨h.wellFormed, fun key => ?_, hnodup, fun x key hx hm => ?_, fun x y key hx hy => ?_⟩
  · simp only [h.occupied, List.not_mem_nil, false_or, hstack, hleft, ← exists_or,
      ← or_and_right, Classical.em, true_and]
  · obtain ⟨hP, hx⟩ := hleft.1 hx
    obtain ⟨y, hPy, hy⟩ := (hstack key).1 hm
    exact hP (h.single x y key hx hy ▸ hPy)
  · exact h.single x y key (hleft.1 hx).2 (hleft.1 hy).2

end Tally

end Registry

def Engine.keeps : Engine → Nat → Bool
  | .machine E, key => (E.machine.registry.get? key).isSome
  | .pacer E, key => (E.pacer.get? key).isSome
  | .inert, _ => false

def World.keeps (w : World) (e key : Nat) : Bool := (w.engine? e).any (·.keeps key)

theorem Engine.keeps_unreference (E : Engine) (key : Nat) : (E.unreference key).keeps key = false := by
  cases E with
  | machine E =>
    simp only [unreference, keeps, Machine.unreference, Registry.get?_erase]
    rfl
  | pacer E =>
    simp only [unreference, keeps, Pacer.unreference, Pacer.get?, Array.getElem?_setIfInBounds]
    grind
  | inert => rfl

theorem World.keeps_unreference (w : World) (e key : Nat) :
    (w.modifyEngine e (·.unreference key)).keeps e key = false := by
  rw [keeps, engine?_modifyEngine]
  cases w.engine? e with
  | none => rfl
  | some E => exact E.keeps_unreference key

end TaskLoop
