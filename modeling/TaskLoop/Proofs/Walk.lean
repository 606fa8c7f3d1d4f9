import TaskLoop.Proofs.Frame
import TaskLoop.Proofs.Handles
import TaskLoop.Proofs.LastTurn

namespace TaskLoop

open scoped List

variable {w : World} {q : Nat} {id : TaskId} {ids past before done todo : List TaskId} {p : Process}
  {Q : Queue}

theorem sublist_split {l front back : List TaskId} (h : l <+ front ++ id :: back)
    (hnodup : (front ++ id :: back).Nodup) (hm : id ∈ l) :
    ∃ l₁ l₂, l = l₁ ++ id :: l₂ ∧ l₁ <+ front ∧ l₂ <+ back := by
  obtain ⟨_, hback, hdisjoint⟩ := List.nodup_append.1 hnodup
  obtain ⟨l₁, l₂, rfl, hl₁, hl₂⟩ := List.sublist_append_iff.1 h
  have hm₂ : id ∈ l₂ := (List.mem_append.1 hm).resolve_left fun hm₁ =>
    hdisjoint id (hl₁.subset hm₁) id (List.mem_cons_self ..) rfl
  cases hl₂ with
  | cons _ hl₂ => exact absurd (hl₂.subset hm₂) (List.nodup_cons.1 hback).1
  | @cons_cons l₃ _ _ hl₃ => exact ⟨l₁, l₃, rfl, hl₁, hl₃⟩

namespace World

def current (w : World) (q : Nat) : Option TaskId := w.queue? q >>= (·.current)

theorem current_eq (hQ : w.queue? q = some Q) : w.current q = Q.current := by rw [current, hQ]; rfl

/-- A pass has come so far in a queue: of the row of tasks it has left some behind it, others are
ahead. It has visited these ids, in their order, and no other task that it left behind is queued. -/
structure Passed (w : World) (q : Nat) (ids done todo : List TaskId) : Prop where
  lists : w.Lists q (done ++ todo)
  visited : ids <+ done
  left : ∀ id ∈ done, id ∈ w.order q → id ∈ ids

theorem passed_nil (hw : w.WellFormed) (q : Nat) : w.Passed q [] [] (w.order q) := by
  refine ⟨⟨nodup_order hw q, .refl _, fun Q hQ id hm => ?_⟩, .refl _, nofun⟩
  rw [List.nil_append, order_eq hQ] at hm
  exact .inl (((hw q Q hQ).order id).1 hm)

namespace Passed

theorem not_mem_todo (h : w.Passed q ids done todo) (hm : id ∈ done) : id ∉ todo := fun hm' =>
  (List.nodup_append.1 h.lists.nodup).2.2 id hm id hm' rfl

theorem visit (h : w.Passed q ids done (id :: todo)) :
    w.Passed q (ids ++ [id]) (done ++ [id]) todo := by
  refine ⟨?_, h.visited.append (.refl _), fun id' hm hqueued => ?_⟩
  · rw [List.append_assoc]
    exact h.lists
  · obtain hm | hm := List.mem_append.1 hm
    · exact List.mem_append_left _ (h.left id' hm hqueued)
    · exact List.mem_append_right _ hm

/-- The pass leaves behind what comes before the first queued task that it has not visited. -/
theorem advance (h : w.Passed q ids done todo) :
    ∃ gone rest, todo = gone ++ rest ∧ w.Passed q ids (done ++ gone) rest ∧
      rest.head? = (w.order q).find? (· ∉ ids) := by
  cases hfind : (w.order q).find? (· ∉ ids) with
  | none =>
    refine ⟨todo, [], (List.append_nil _).symm, ⟨?_, ?_, fun id hm hqueued => ?_⟩, rfl⟩
    · rw [List.append_nil]
      exact h.lists
    · exact h.visited.trans (List.sublist_append_left ..)
    · simpa using List.find?_eq_none.1 hfind id hqueued
  | some id =>
    have hqueued : id ∈ w.order q := List.mem_of_find?_eq_some hfind
    have hnew : id ∉ ids := by simpa using List.find?_some hfind
    have htodo : id ∈ todo := (List.mem_append.1 (h.lists.order.subset hqueued)).resolve_left
      fun hm => hnew (h.left id hm hqueued)
    obtain ⟨gone, rest, rfl⟩ := List.append_of_mem htodo
    have hrow : done ++ (gone ++ id :: rest) = done ++ gone ++ id :: rest :=
      (List.append_assoc ..).symm
    have hlists := hrow ▸ h.lists
    obtain ⟨l₁, l₂, horder, hl₁, hl₂⟩ := sublist_split hlists.order hlists.nodup hqueued
    refine ⟨gone, id :: rest, rfl, ⟨hlists, ?_, fun id' hm hqueued' => ?_⟩, rfl⟩
    · exact h.visited.trans (List.sublist_append_left ..)
    · obtain ⟨_, hrest, hdisjoint⟩ := List.nodup_append.1 hlists.nodup
      rw [horder] at hqueued'
      obtain hm₁ | hm₂ := List.mem_append.1 hqueued'
      · -- the task is queued before the one that is found, so it has been visited
        by_contra hnew'
        rw [horder, List.find?_append] at hfind
        cases hfirst : l₁.find? (· ∉ ids) with
        | none => exact hnew' (by simpa using List.find?_eq_none.1 hfirst id' hm₁)
        | some id₁ =>
          rw [hfirst] at hfind
          obtain rfl : id₁ = id := Option.some.inj hfind
          exact hdisjoint id₁ (hl₁.subset (List.mem_of_find?_eq_some hfirst)) id₁
            (List.mem_cons_self ..) rfl
      · exact absurd rfl (hdisjoint id' hm id' ((List.cons_sublist_cons.2 hl₂).subset hm₂))

/-- Both rules choose the first queued task that has not been visited. -/
theorem chooseNext_eq (h : w.Passed q (past ++ [id]) (before ++ [id]) todo) (hw : w.WellFormed)
    (hQ : w.queue? q = some Q) :
    chooseNext Q id (past ++ [id]).reverse = (w.order q).find? (· ∉ past ++ [id]) := by
  rw [order_eq hQ]
  cases hcontains : Q.contains id with
  | false =>
    rw [chooseNext, hcontains, if_neg Bool.false_ne_true, Queue.firstUnvisited?]
    congr 1
    funext id'
    simp [Bool.and_comm]
  | true =>
    have hwf := hw q Q hQ
    have hqueued : id ∈ Q.order :=
      (hwf.order id).2 (Option.isSome_iff_exists.1 hcontains)
    have hrow : before ++ [id] ++ todo = before ++ id :: todo := by simp
    have hlists := hrow ▸ h.lists
    obtain ⟨l₁, l₂, horder, hl₁, hl₂⟩ :=
      sublist_split (order_eq hQ ▸ hlists.order) hlists.nodup hqueued
    have hvisited : l₁.find? (· ∉ past ++ [id]) = none := List.find?_eq_none.2 fun id' hm => by
      have hleft := h.left id' (List.mem_append_left _ (hl₁.subset hm))
      rw [order_eq hQ, horder] at hleft
      rw [decide_eq_true_iff, not_not]
      exact hleft (List.mem_append_left _ hm)
    have hahead : l₂.find? (· ∉ past ++ [id]) = l₂.head? := by
      cases l₂ with
      | nil => rfl
      | cons id' l₃ =>
        refine List.find?_cons_of_pos ?_
        exact decide_eq_true fun hm =>
          h.not_mem_todo (h.visited.subset hm) (hl₂.subset (List.mem_cons_self ..))
    rw [chooseNext, hcontains, if_pos rfl, Queue.nextAfter?_eq hwf.nodup horder, horder,
      List.find?_append, hvisited, Option.none_or, List.find?_cons_of_neg (by simp), hahead]

end Passed

theorem endTurn_completes {task : Task} (hQ : w.queue? q = some Q) (hg : Q.get? id = some task)
    (walk : Walk) (k : Pending .pass) :
    ∃ left, Q.leave.unlink? id = some (task, left) ∧
      w.endTurn q id walk .done k = (w.setQueue q left).destroy task
        (.cons (.walk q (chooseNext Q id walk.visited)
          ⟨walk.visited, walk.stepped + 1, walk.completed + 1⟩) k) := by
  obtain ⟨tasks, taken, _⟩ := Queue.unlink?_of_get? (Q := Q.leave) hg
  refine ⟨_, taken, ?_⟩
  simp only [endTurn, hQ, taken]

theorem endTurn_leaves {verdict : Verdict} (hQ : w.queue? q = some Q)
    (hg : verdict = .done → Q.get? id = none) (hheld : Q.held = none) (walk : Walk)
    (k : Pending .pass) :
    w.endTurn q id walk verdict k = (w.setQueue q Q.leave).deliver
      (.cons (.walk q (chooseNext Q id walk.visited)
        ⟨walk.visited, walk.stepped + 1, walk.completed⟩) k) () := by
  cases verdict with
  | again => simp only [endTurn, hQ, hheld]
  | done => simp only [endTurn, hQ, Queue.unlink?_eq_none (Q := Q.leave) (hg rfl), hheld]

theorem endTurn_destroys {verdict : Verdict} {task : Task} (hQ : w.queue? q = some Q)
    (hg : verdict = .done → Q.get? id = none) (hheld : Q.held = some task) (walk : Walk)
    (k : Pending .pass) :
    w.endTurn q id walk verdict k = (w.setQueue q Q.leave).destroy task
      (.cons (.walk q (chooseNext Q id walk.visited)
        ⟨walk.visited, walk.stepped + 1, walk.completed⟩) k) := by
  cases verdict with
  | again => simp only [endTurn, hQ, hheld]
  | done => simp only [endTurn, hQ, Queue.unlink?_eq_none (Q := Q.leave) (hg rfl), hheld]

/-- The next task is chosen before the one whose turn ends leaves the queue. -/
theorem clears_endTurn (hQ : w.queue? q = some Q) (id : TaskId) (walk : Walk) (verdict : Verdict)
    (k : Pending .pass) : ∃ completed left,
      (left.order = Q.order ∨ left.order = Q.order.filter (· != id)) ∧ left.current = none ∧
      (w.endTurn q id walk verdict k).Within (fun w' => w'.queue? q = some left)
        (.cons (.walk q (chooseNext Q id walk.visited)
          ⟨walk.visited, walk.stepped + 1, completed⟩) k) := by
  have hlasting : ∀ left, Lasting (fun _ => True) fun w' => w'.queue? q = some left :=
    fun left w₁ w₂ h haside => (haside.queue? q).trans h
  rw [endTurn, hQ]
  dsimp only
  split
  · next task left taken =>
    obtain ⟨tasks, _, rfl⟩ := Queue.unlink?_eq_some taken
    exact ⟨_, _, .inr rfl, rfl,
      within_destroy (hlasting _) (queue?_setQueue_self hQ _) _ (fun _ _ => trivial) _⟩
  · refine ⟨walk.completed, Q.leave, .inl rfl, rfl, ?_⟩
    split
    · exact within_deliver (queue?_setQueue_self hQ _) _ _
    · exact within_destroy (hlasting _) (queue?_setQueue_self hQ _) _ (fun _ _ => trivial) _

theorem upon_walkOn {task : Task} (ht : w.task? q id = some task) (walk : Walk) (k : Pending .pass) :
    (w.walkOn q (some id) walk k).Enters w k.turns q id ∧
      (w.walkOn q (some id) walk k).control.Upon
        (.cons (.turn q id { walk with visited := id :: walk.visited }) k) := by
  rw [walkOn, show w.queue? q >>= (·.get? id) = some task from ht]
  exact ⟨.intro ht rfl, (stepping_enter ht _ _).upon⟩

end World

namespace Process

/-- Where a pass stands in its queue stays true, whatever happens. -/
theorem Sound.passed_step (h : p.Sound) (hp : p.world.Passed q ids done todo) :
    p.step.world.Passed q ids done (todo ++ p.pushed q) := by
  have hlists := h.lists_step hp.lists
  refine ⟨by rwa [List.append_assoc] at hlists, hp.visited, fun id hm hqueued => hp.left id hm ?_⟩
  by_contra hnew
  have hpushed : id ∈ p.pushed q := List.mem_filter.2 ⟨hqueued, by simpa using hnew⟩
  exact (List.nodup_append.1 hlists.nodup).2.2 id (List.mem_append_left _ hm) id hpushed rfl

end Process

end TaskLoop
