import TaskLoop.Proofs.Pass

namespace TaskLoop

variable {w w' : World} {T : Nat → Prop} {q : Nat} {id : TaskId} {Q left : Queue} {p : Process}
  {task : Task}

namespace World

theorem task?_setQueue (hQ : w.queue? q = some Q) (Q' : Queue) (id : TaskId) :
    (w.setQueue q Q').task? q id = Q'.get? id := task?_eq (queue?_setQueue_self hQ Q') id

theorem lasting_task? (q : Nat) (id : TaskId) (o : Option Task) (T : Nat → Prop) :
    Lasting T fun w => w.task? q id = o := fun w₁ w₂ h haside => by
  change w₂.task? q id = o
  rw [task?, haside.queue? q]
  exact h

theorem task?_destroy (w : World) (task : Task) (k : Pending .done) (q : Nat) (id : TaskId) :
    (w.destroy task k).world.task? q id = w.task? q id :=
  (within_destroy (lasting_task? q id (w.task? q id) fun _ => True) rfl task (fun _ _ => trivial)
    k).world

theorem removeTask_holds (taken : Q.unlink? id = some (task, left)) (hrunning : Q.current = some id)
    (w : World) (q : Nat) (k : Pending .reply) :
    w.removeTask q Q id k = (w.setQueue q { left with held := some task }).deliver k .ok := by
  rw [removeTask, taken]
  exact if_pos hrunning

theorem removeTask_destroys (taken : Q.unlink? id = some (task, left)) (hidle : Q.current ≠ some id)
    (w : World) (q : Nat) (k : Pending .reply) :
    w.removeTask q Q id k = (w.setQueue q left).destroy task (.cons (.doneReply .ok) k) := by
  rw [removeTask, taken]
  exact if_neg hidle

theorem task?_removeTask (hQ : w.queue? q = some Q) (id : TaskId) (k : Pending .reply) :
    (w.removeTask q Q id k).world.task? q id = none := by
  cases hg : Q.get? id with
  | none =>
    rw [removeTask, Queue.unlink?_eq_none hg]
    exact (task?_eq hQ id).trans hg
  | some task =>
    obtain ⟨tasks, taken, _⟩ := Queue.unlink?_of_get? hg
    have hleft := (Queue.get?_unlink? taken id).trans (if_pos rfl)
    by_cases hc : Q.current = some id
    · rw [removeTask_holds taken hc, deliver]
      exact (task?_setQueue hQ _ id).trans hleft
    · rw [removeTask_destroys taken hc, task?_destroy]
      exact (task?_setQueue hQ _ id).trans hleft

theorem task?_endTurn (hQ : w.queue? q = some Q) (id : TaskId) (walk : Walk) (k : Pending .pass) :
    (w.endTurn q id walk .done k).world.task? q id = none := by
  cases hg : Q.get? id with
  | none =>
    have hleave := (task?_setQueue hQ Q.leave id).trans hg
    cases hheld : Q.held with
    | none => rw [endTurn_leaves hQ (fun _ => hg) hheld]; exact hleave
    | some task => rw [endTurn_destroys hQ (fun _ => hg) hheld, task?_destroy]; exact hleave
  | some task =>
    obtain ⟨left, taken, heq⟩ := endTurn_completes hQ hg walk k
    rw [heq, task?_destroy, task?_setQueue hQ, Queue.get?_unlink? taken, if_pos rfl]

end World

namespace Process

theorem Removes.ne_aborted (h : p.Removes q id) : p.control ≠ .aborted := by
  obtain ⟨_, k, hcontrol, _⟩ := h
  rw [hcontrol]
  exact fun h => by cases h

theorem Removes.step_eq (h : p.Removes q id) :
    ∃ Q task left k, p.world.queue? q = some Q ∧ Q.unlink? id = some (task, left) ∧
      p.control.turns = k.turns ∧ p.step = p.world.removeTask q Q id k := by
  obtain ⟨w, control⟩ := p
  obtain ⟨_, k, rfl, ⟨task, ht⟩, name, rfl, hid⟩ := h
  obtain ⟨Q, hQ, hg⟩ := World.task?_eq_some.1 ht
  obtain ⟨tasks, taken, _⟩ := Queue.unlink?_of_get? hg
  refine ⟨Q, task, _, k, hQ, taken, rfl, ?_⟩
  change w.perform (.queue q (.remove name)) k = _
  rw [World.perform, show w.queue? q = some Q from hQ, ← hid]
  rfl

theorem Completes.step_eq (h : p.Completes q id) :
    ∃ walk k, p.control.turns = (q, id) :: k.turns ∧
      p.step = p.world.endTurn q id walk .done k := by
  obtain ⟨walk, k, hp⟩ := h
  refine ⟨walk, k, by rw [hp]; rfl, ?_⟩
  rw [hp]
  exact step_deliver p.world _ (.turn q id walk) k

/-- A task that is removed while it does not run is destroyed at once. -/
theorem Sound.step_of_removes (h : p.Sound) (hremoves : p.Removes q id)
    (hidle : (q, id) ∉ p.control.turns) (ht : p.world.task? q id = some task) :
    ∃ (w' : World) (k : Pending .done), p.step = w'.destroy task k := by
  obtain ⟨Q, task', left, k, hQ, taken, _, hstep⟩ := hremoves.step_eq
  have hg := (World.task?_eq hQ id).symm.trans ht
  obtain rfl : task' = task := Option.some.inj ((Queue.get?_of_unlink? taken).symm.trans hg)
  have hcurrent : Q.current ≠ some id := fun hc => hidle (h.ready.marks hQ hc hremoves.ne_aborted)
  exact ⟨_, _, hstep.trans (World.removeTask_destroys taken hcurrent p.world q k)⟩

theorem Sound.task?_of_leaves (h : p.Sound) (hleaves : p.Leaves q id) :
    p.step.world.task? q id = none := by
  obtain hremoves | hcompletes := hleaves
  · obtain ⟨Q, task, left, k, hQ, taken, _, hstep⟩ := hremoves.step_eq
    rw [hstep]
    exact World.task?_removeTask hQ id k
  · obtain ⟨walk, k, hturns, hstep⟩ := hcompletes.step_eq
    obtain ⟨Q, hQ, _, _⟩ := h.ready.running (hturns ▸ List.mem_cons_self ..)
    rw [hstep]
    exact World.task?_endTurn hQ id walk k

end Process

end TaskLoop
