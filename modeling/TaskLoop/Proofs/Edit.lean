import Mathlib.Logic.Relation
import TaskLoop.Queue.Basic
import TaskLoop.Proofs.Arena

namespace TaskLoop

namespace Task

def engine? : Task → Option Nat
  | .script t => some t.engine
  | _ => none

/-- A later record of a task: the same kind of task on the same engine, and an interrupt is never
taken back. -/
structure Heir (old new : Task) : Prop where
  kind : new.kind = old.kind
  engine : new.engine? = old.engine?
  armed : old.armed = true → new.armed = true

variable {old mid new : Task}

theorem Heir.refl (task : Task) : task.Heir task := ⟨rfl, rfl, fun h => h⟩

theorem Heir.trans (h : old.Heir mid) (h' : mid.Heir new) : old.Heir new :=
  ⟨h'.kind.trans h.kind, h'.engine.trans h.engine, fun ha => h'.armed (h.armed ha)⟩

theorem Heir.script {t : ScriptTask} (h : old.Heir (.script t)) : ∃ t', old = .script t' := by
  cases old with
  | script t' => exact ⟨t', rfl⟩
  | idle | timer | watcher => cases h.kind

theorem eq_script_of_armed {task : Task} (h : task.armed = true) : ∃ t, task = .script t := by
  cases task with
  | script t => exact ⟨t, rfl⟩
  | idle | timer | watcher => cases h

theorem heir_of_interrupted? (h : old.interrupted? = some new) : old.Heir new := by
  cases old with
  | watcher t => cases h
  | idle t | timer t | script t => cases h; exact ⟨rfl, rfl, fun _ => by simp_all [armed]⟩

end Task

namespace Queue

variable {I J : TaskId → Prop} {Q Q' : Queue} {id id' : TaskId} {task task' : Task}

/-- The ids in the order are those of the records, each once. A record is held only for a running
task that has left the queue. -/
structure WellFormed (Q : Queue) : Prop where
  tasks : Q.tasks.WellFormed
  nodup : Q.order.Nodup
  order : ∀ id, id ∈ Q.order ↔ ∃ task, Q.get? id = some task
  held : ∀ task, Q.held = some task → ∃ id, Q.current = some id ∧ Q.tasks.Spent id

inductive Edit (I : TaskId → Prop) (Q : Queue) : Queue → Prop
  | note (stopping : Bool) (stats : Stats) (messages : List Message) :
      Edit I Q { Q with stopping, stats, messages }
  | push (task : Task) (fresh : task.armed = false) : Edit I Q (Q.push task).2
  | rewrite (id : TaskId) (f : Task → Task)
      (heir : ∀ task, Q.get? id = some task → task.Heir (f task))
      (allowed : ∀ task, Q.get? id = some task → (f task).armed = true →
        task.armed = true ∨ I id) : Edit I Q (Q.modify id f)
  | unlink {id : TaskId} {task : Task} {left : Queue} (taken : Q.unlink? id = some (task, left))
      (idle : Q.current ≠ some id) : Edit I Q left
  | hold {id : TaskId} {task : Task} {left : Queue} (taken : Q.unlink? id = some (task, left))
      (running : Q.current = some id) : Edit I Q { left with held := some task }

inductive Move (I : TaskId → Prop) (Q : Queue) : Queue → Prop
  | edit {Q' : Queue} (edit : Q.Edit I Q') : Move I Q Q'
  | enter {id : TaskId} {task : Task} (queued : Q.get? id = some task) (idle : Q.current = none) :
      Move I Q (Q.enter id)
  | leave : Move I Q Q.leave

def Edits (I : TaskId → Prop) : Queue → Queue → Prop := Relation.ReflTransGen (Edit I)

def Moves (I : TaskId → Prop) : Queue → Queue → Prop := Relation.ReflTransGen (Move I)

theorem Edit.mono (hIJ : ∀ id, I id → J id) (h : Q.Edit I Q') : Q.Edit J Q' := by
  cases h with
  | note stopping stats messages => exact .note stopping stats messages
  | push task fresh => exact .push task fresh
  | rewrite id f heir allowed =>
    exact .rewrite id f heir fun task hg ha => (allowed task hg ha).imp_right (hIJ id)
  | unlink taken idle => exact .unlink taken idle
  | hold taken running => exact .hold taken running

theorem Move.mono (hIJ : ∀ id, I id → J id) (h : Q.Move I Q') : Q.Move J Q' := by
  cases h with
  | edit edit => exact .edit (edit.mono hIJ)
  | enter queued idle => exact .enter queued idle
  | leave => exact .leave

theorem Edits.mono (hIJ : ∀ id, I id → J id) (h : Q.Edits I Q') : Q.Edits J Q' :=
  Relation.ReflTransGen.mono (fun _ _ => Edit.mono hIJ) _ _ h

theorem Moves.mono (hIJ : ∀ id, I id → J id) (h : Q.Moves I Q') : Q.Moves J Q' :=
  Relation.ReflTransGen.mono (fun _ _ => Move.mono hIJ) _ _ h

theorem Edits.moves (h : Q.Edits I Q') : Q.Moves I Q' :=
  Relation.ReflTransGen.mono (fun _ _ => Move.edit) _ _ h

theorem unlink?_eq_some {left : Queue} (h : Q.unlink? id = some (task, left)) :
    ∃ tasks, Q.tasks.remove? id = some (task, tasks) ∧
      left = { Q with tasks, order := Q.order.filter (· != id) } := by
  simp only [unlink?, Option.map_eq_some_iff, Prod.mk.injEq] at h
  obtain ⟨⟨_, tasks⟩, htasks, rfl, rfl⟩ := h
  exact ⟨tasks, htasks, rfl⟩

theorem get?_of_unlink? {left : Queue} (h : Q.unlink? id = some (task, left)) :
    Q.get? id = some task := by
  obtain ⟨_, htasks, _⟩ := unlink?_eq_some h
  exact (Arena.remove?_eq_some htasks).1

theorem unlink?_of_get? (h : Q.get? id = some task) :
    ∃ tasks, Q.unlink? id = some (task, { Q with tasks, order := Q.order.filter (· != id) }) ∧
      ∀ id', id' ≠ id → tasks.get? id' = Q.get? id' := by
  have hremove : Q.tasks.remove? id = some (task, ⟨Q.tasks.slots.setIfInBounds (id.slot - 1)
      ⟨id.version + 1, none⟩, (id.slot - 1) :: Q.tasks.free⟩) := by
    rw [Arena.remove?, show Q.tasks.get? id = some task from h]
    rfl
  exact ⟨_, by rw [unlink?, hremove]; rfl, fun id' hne => Arena.get?_remove?_of_ne hremove hne⟩

theorem unlink?_eq_none (h : Q.get? id = none) : Q.unlink? id = none := by
  rw [unlink?, Arena.remove?, show Q.tasks.get? id = none from h]
  rfl

theorem get?_modify (Q : Queue) (id : TaskId) (f : Task → Task) (id' : TaskId) :
    (Q.modify id f).get? id' = if id' = id then (Q.get? id).map f else Q.get? id' :=
  Arena.get?_modify Q.tasks id f id'

theorem WellFormed.push (hQ : Q.WellFormed) (task : Task) : (Q.push task).2.WellFormed := by
  have hnew : (Q.tasks.insert task).1 ∉ Q.order := by
    intro hm
    obtain ⟨t, ht⟩ := (hQ.order _).1 hm
    exact Arena.fst_insert_ne hQ.tasks (.inl ⟨t, ht⟩) task rfl
  refine ⟨hQ.tasks.insert task, ?_, fun id => ?_, fun t ht => ?_⟩
  · simpa [Queue.push, List.nodup_append, hQ.nodup] using fun a ha => ne_of_mem_of_not_mem ha hnew
  · simp only [Queue.push, List.mem_append, List.mem_singleton, hQ.order, Queue.get?]
    constructor
    · rintro (⟨t, ht⟩ | rfl)
      · exact ⟨t, Arena.get?_insert_of_get? hQ.tasks ht task⟩
      · exact ⟨task, Arena.get?_insert_self hQ.tasks task⟩
    · rintro ⟨t, ht⟩
      obtain ⟨rfl, _⟩ | ht := Arena.get?_insert hQ.tasks task ht
      · exact .inr rfl
      · exact .inl ⟨t, ht⟩
  · obtain ⟨id, hc, hs⟩ := hQ.held t ht
    exact ⟨id, hc, hs.insert hQ.tasks task⟩

theorem WellFormed.modify (hQ : Q.WellFormed) (id : TaskId) (f : Task → Task) :
    (Q.modify id f).WellFormed := by
  refine ⟨hQ.tasks.modify id f, hQ.nodup, fun id' => ?_, fun t ht => ?_⟩
  · rw [get?_modify]
    split
    · next he => subst he; simpa [Queue.modify] using hQ.order id'
    · exact hQ.order id'
  · obtain ⟨id', hc, hs⟩ := hQ.held t ht
    exact ⟨id', hc, hs.modify id f⟩

theorem WellFormed.mem_order_unlink? (hQ : Q.WellFormed) {left : Queue}
    (taken : Q.unlink? id = some (task, left)) (id' : TaskId) :
    id' ∈ left.order ↔ ∃ task, left.get? id' = some task := by
  obtain ⟨_, htasks, rfl⟩ := unlink?_eq_some taken
  by_cases he : id' = id
  · subst he
    simp [Queue.get?, (Arena.spent_of_remove? htasks).get?_eq_none]
  · simp [hQ.order, Queue.get?, he, Arena.get?_remove?_of_ne htasks he]

theorem Edit.spent (hQ : Q.WellFormed) (h : Q.Edit I Q') (hs : Q.tasks.Spent id) :
    Q'.tasks.Spent id := by
  cases h with
  | note => exact hs
  | push task => exact hs.insert hQ.tasks task
  | rewrite id' f => exact hs.modify id' f
  | unlink taken | hold taken =>
    obtain ⟨_, htasks, rfl⟩ := unlink?_eq_some taken
    exact hs.remove? htasks

theorem Edit.wellFormed (hQ : Q.WellFormed) (h : Q.Edit I Q') : Q'.WellFormed := by
  cases h with
  | note => exact ⟨hQ.tasks, hQ.nodup, hQ.order, hQ.held⟩
  | push task => exact hQ.push task
  | rewrite id' f => exact hQ.modify id' f
  | unlink taken =>
    have horder := hQ.mem_order_unlink? taken
    obtain ⟨_, htasks, rfl⟩ := unlink?_eq_some taken
    refine ⟨hQ.tasks.remove? htasks, hQ.nodup.filter _, horder, fun t ht => ?_⟩
    obtain ⟨id, hc, hs⟩ := hQ.held t ht
    exact ⟨id, hc, hs.remove? htasks⟩
  | @hold id' _ _ taken running =>
    have horder := hQ.mem_order_unlink? taken
    obtain ⟨_, htasks, rfl⟩ := unlink?_eq_some taken
    exact ⟨hQ.tasks.remove? htasks, hQ.nodup.filter _, horder,
      fun _ _ => ⟨id', running, Arena.spent_of_remove? htasks⟩⟩

theorem WellFormed.held_eq_none (hQ : Q.WellFormed) (h : Q.current = none) : Q.held = none := by
  cases hh : Q.held with
  | none => rfl
  | some task =>
    obtain ⟨id, hc, _⟩ := hQ.held task hh
    simp [h] at hc

theorem WellFormed.held_eq_none_of_get? (hQ : Q.WellFormed) (hc : Q.current = some id)
    (hg : Q.get? id = some task) : Q.held = none := by
  cases hh : Q.held with
  | none => rfl
  | some held =>
    obtain ⟨id', hc', hs⟩ := hQ.held held hh
    obtain rfl := Option.some.inj (hc'.symm.trans hc)
    cases hg.symm.trans hs.get?_eq_none

theorem Move.wellFormed (hQ : Q.WellFormed) (h : Q.Move I Q') : Q'.WellFormed := by
  cases h with
  | edit edit => exact edit.wellFormed hQ
  | enter queued idle =>
    refine ⟨hQ.tasks, hQ.nodup, hQ.order, fun task ht => ?_⟩
    rw [show (Q.enter _).held = Q.held from rfl, hQ.held_eq_none idle] at ht
    cases ht
  | leave => exact ⟨hQ.tasks, hQ.nodup, hQ.order, fun _ ht => by cases ht⟩

theorem Moves.keeps {P : Queue → Prop} (h : Q.Moves I Q') (hQ : Q.WellFormed) (hP : P Q)
    (step : ∀ {A B : Queue}, A.WellFormed → A.Move I B → P A → P B) : P Q' := by
  suffices Q'.WellFormed ∧ P Q' from this.2
  induction h with
  | refl => exact ⟨hQ, hP⟩
  | tail _ move ih => exact ⟨move.wellFormed ih.1, step ih.1 move ih.2⟩

theorem Edits.keeps {P : Queue → Prop} (h : Q.Edits I Q') (hQ : Q.WellFormed) (hP : P Q)
    (step : ∀ {A B : Queue}, A.WellFormed → A.Edit I B → P A → P B) : P Q' := by
  suffices Q'.WellFormed ∧ P Q' from this.2
  induction h with
  | refl => exact ⟨hQ, hP⟩
  | tail _ edit ih => exact ⟨edit.wellFormed ih.1, step ih.1 edit ih.2⟩

theorem Moves.wellFormed (h : Q.Moves I Q') (hQ : Q.WellFormed) : Q'.WellFormed :=
  h.keeps hQ hQ fun hA move _ => move.wellFormed hA

theorem Moves.config (h : Q.Moves I Q') (hQ : Q.WellFormed) : Q'.config = Q.config := by
  refine h.keeps (P := fun B => B.config = Q.config) hQ rfl fun {A B} _ move hA => ?_
  rw [← hA]
  cases move with
  | enter | leave => rfl
  | edit edit =>
    cases edit with
    | note | push | rewrite => rfl
    | unlink taken | hold taken => obtain ⟨_, _, rfl⟩ := unlink?_eq_some taken; rfl

theorem Move.spent (hQ : Q.WellFormed) (h : Q.Move I Q') (hs : Q.tasks.Spent id) :
    Q'.tasks.Spent id := by
  cases h with
  | edit edit => exact edit.spent hQ hs
  | enter | leave => exact hs

theorem Moves.spent (h : Q.Moves I Q') (hQ : Q.WellFormed) (hs : Q.tasks.Spent id) :
    Q'.tasks.Spent id :=
  h.keeps (P := fun B => B.tasks.Spent id) hQ hs fun hA move hs => move.spent hA hs

theorem Edit.get? (hQ : Q.WellFormed) (h : Q.Edit I Q') (hg : Q.get? id = some task) :
    (∃ task', Q'.get? id = some task' ∧ task.Heir task') ∨ Q'.tasks.Spent id := by
  cases h with
  | note => exact .inl ⟨task, hg, .refl task⟩
  | push new => exact .inl ⟨task, Arena.get?_insert_of_get? hQ.tasks hg new, .refl task⟩
  | rewrite id' f heir =>
    left
    rw [get?_modify]
    split
    · next he => subst he; exact ⟨f task, by simp [hg], heir task hg⟩
    · exact ⟨task, hg, .refl task⟩
  | @unlink id' _ _ taken | @hold id' _ _ taken =>
    obtain ⟨_, htasks, rfl⟩ := unlink?_eq_some taken
    by_cases he : id = id'
    · subst he
      exact .inr (Arena.spent_of_remove? htasks)
    · exact .inl ⟨task, (Arena.get?_remove?_of_ne htasks he).trans hg, .refl task⟩

/-- A queued task goes on as the same kind of task, or it leaves the queue for good. -/
theorem Moves.get? (h : Q.Moves I Q') (hQ : Q.WellFormed) (hg : Q.get? id = some task) :
    (∃ task', Q'.get? id = some task' ∧ task.Heir task') ∨ Q'.tasks.Spent id := by
  refine h.keeps (P := fun B => (∃ task', B.get? id = some task' ∧ task.Heir task') ∨
    B.tasks.Spent id) hQ (.inl ⟨task, hg, .refl task⟩) fun {A B} hA move ih => ?_
  cases move with
  | enter | leave => exact ih
  | edit edit =>
    obtain ⟨mid, hm, hheir⟩ | hs := ih
    · obtain ⟨new, hn, hheir'⟩ | hs := edit.get? hA hm
      · exact .inl ⟨new, hn, hheir.trans hheir'⟩
      · exact .inr hs
    · exact .inr (edit.spent hA hs)

theorem Moves.known (h : Q.Moves I Q') (hQ : Q.WellFormed) (hk : Q.tasks.Known id) :
    Q'.tasks.Known id := by
  obtain ⟨task, hg⟩ | hs := hk
  · obtain ⟨task', hg', _⟩ | hs := h.get? hQ hg
    · exact .inl ⟨task', hg'⟩
    · exact .inr hs
  · exact .inr (h.spent hQ hs)

/-- A known id that is queued was queued all the time, with a record of the same kind. -/
theorem Moves.get?_origin (h : Q.Moves I Q') (hQ : Q.WellFormed) (hk : Q.tasks.Known id)
    (hg : Q'.get? id = some task') : ∃ task, Q.get? id = some task ∧ task.Heir task' := by
  obtain ⟨task, ht⟩ | hs := hk
  · obtain ⟨new, hn, hheir⟩ | hs := h.get? hQ ht
    · obtain rfl : new = task' := Option.some.inj (hn.symm.trans hg)
      exact ⟨task, ht, hheir⟩
    · cases hs.get?_eq_none.symm.trans hg
  · cases (h.spent hQ hs).get?_eq_none.symm.trans hg

/-- A record of the task has the property: the queued one, or the one that is held back as long as
the task runs after it has left the queue. -/
def Bears (R : Task → Prop) (Q : Queue) (id : TaskId) : Prop :=
  (∃ task, Q.get? id = some task ∧ R task) ∨
    Q.tasks.Spent id ∧ (Q.current = some id → ∃ task, Q.held = some task ∧ R task)

theorem Edit.current (h : Q.Edit I Q') : Q'.current = Q.current := by
  cases h with
  | note | push | rewrite => rfl
  | unlink taken | hold taken => obtain ⟨_, _, rfl⟩ := unlink?_eq_some taken; rfl

theorem Edits.current (h : Q.Edits I Q') (hQ : Q.WellFormed) : Q'.current = Q.current :=
  h.keeps (P := fun B => B.current = Q.current) hQ rfl fun _ edit ih => edit.current.trans ih

/-- What is held back for a running task that has left the queue stays held back. -/
theorem Move.held (h : Q.Move I Q') (hs : Q.tasks.Spent id) (hc : Q'.current = some id) :
    Q.current = some id ∧ Q'.held = Q.held := by
  cases h with
  | edit edit =>
    refine ⟨edit.current.symm.trans hc, ?_⟩
    cases edit with
    | note | push | rewrite => rfl
    | unlink taken => obtain ⟨_, _, rfl⟩ := unlink?_eq_some taken; rfl
    | hold taken running =>
      -- a task that has left the queue is not taken out of it again
      obtain ⟨_, _, rfl⟩ := unlink?_eq_some taken
      obtain rfl := Option.some.inj (running.symm.trans hc)
      cases (get?_of_unlink? taken).symm.trans hs.get?_eq_none
  | enter queued idle =>
    obtain rfl := Option.some.inj hc
    cases queued.symm.trans hs.get?_eq_none
  | leave => cases hc

theorem Moves.held (h : Q.Moves I Q') (hQ : Q.WellFormed) (hs : Q.tasks.Spent id)
    (hc : Q'.current = some id) : Q'.held = Q.held := by
  suffices Q'.tasks.Spent id ∧ (Q'.current = some id → Q'.held = Q.held) from this.2 hc
  refine h.keeps (P := fun B => B.tasks.Spent id ∧ (B.current = some id → B.held = Q.held)) hQ
    ⟨hs, fun _ => rfl⟩ fun {A B} hA move ih => ⟨move.spent hA ih.1, fun hc => ?_⟩
  obtain ⟨hc', hheld⟩ := move.held ih.1 hc
  exact hheld.trans (ih.2 hc')

theorem Edit.bears {R : Task → Prop} (hR : ∀ {old new : Task}, old.Heir new → R old → R new)
    (hQ : Q.WellFormed) (h : Q.Edit I Q') (hg : Q.get? id = some task) (ht : R task) :
    Q'.Bears R id := by
  cases h with
  | note => exact .inl ⟨task, hg, ht⟩
  | push new => exact .inl ⟨task, Arena.get?_insert_of_get? hQ.tasks hg new, ht⟩
  | rewrite id' f heir =>
    left
    rw [get?_modify]
    split
    · next he => subst he; exact ⟨f task, by simp [hg], hR (heir task hg) ht⟩
    · exact ⟨task, hg, ht⟩
  | @unlink id' _ _ taken idle =>
    obtain ⟨_, htasks, rfl⟩ := unlink?_eq_some taken
    by_cases he : id = id'
    · subst he
      exact .inr ⟨Arena.spent_of_remove? htasks, fun hc => absurd hc idle⟩
    · exact .inl ⟨task, (Arena.get?_remove?_of_ne htasks he).trans hg, ht⟩
  | @hold id' old _ taken =>
    have hold := get?_of_unlink? taken
    obtain ⟨_, htasks, rfl⟩ := unlink?_eq_some taken
    by_cases he : id = id'
    · subst he
      obtain rfl : old = task := Option.some.inj (hold.symm.trans hg)
      exact .inr ⟨Arena.spent_of_remove? htasks, fun _ => ⟨old, rfl, ht⟩⟩
    · exact .inl ⟨task, (Arena.get?_remove?_of_ne htasks he).trans hg, ht⟩

/-- What every later record of a task has in common is true of its record as long as there is one.
-/
theorem Moves.bears {R : Task → Prop} (h : Q.Moves I Q')
    (hR : ∀ {old new : Task}, old.Heir new → R old → R new) (hQ : Q.WellFormed)
    (hb : Q.Bears R id) : Q'.Bears R id := by
  refine h.keeps (P := fun B => B.Bears R id) hQ hb fun {A B} hA move hb => ?_
  obtain ⟨task, hg, ht⟩ | ⟨hs, hheld⟩ := hb
  · cases move with
    | edit edit => exact edit.bears hR hA hg ht
    | enter | leave => exact .inl ⟨task, hg, ht⟩
  · refine .inr ⟨move.spent hA hs, fun hc => ?_⟩
    obtain ⟨hc', heq⟩ := move.held hs hc
    rw [heq]
    exact hheld hc'

def Armed (Q : Queue) (id : TaskId) : Prop :=
  (∃ task, Q.get? id = some task ∧ task.armed = true) ∨
    Q.current = some id ∧ ∃ task, Q.held = some task ∧ task.armed = true

theorem Edit.armed_origin (hQ : Q.WellFormed) (h : Q.Edit I Q') (ha : Q'.Armed id) :
    Q.Armed id ∨ I id := by
  cases h with
  | note => exact .inl ha
  | push new fresh =>
    obtain ⟨task, hg, ha⟩ | hc := ha
    · obtain ⟨_, rfl⟩ | hg := Arena.get?_insert hQ.tasks new hg
      · simp [fresh] at ha
      · exact .inl (.inl ⟨task, hg, ha⟩)
    · exact .inl (.inr hc)
  | rewrite id' f heir allowed =>
    obtain ⟨task, hg, ha⟩ | hc := ha
    · rw [get?_modify] at hg
      split at hg
      · next he =>
        subst he
        obtain ⟨old, ht, rfl⟩ := Option.map_eq_some_iff.1 hg
        exact (allowed old ht ha).imp_left fun ha => .inl ⟨old, ht, ha⟩
      · exact .inl (.inl ⟨task, hg, ha⟩)
    · exact .inl (.inr hc)
  | @unlink id' _ _ taken =>
    obtain ⟨_, htasks, rfl⟩ := unlink?_eq_some taken
    obtain ⟨task, hg, ha⟩ | hc := ha
    · by_cases he : id = id'
      · subst he
        simp [Queue.get?, (Arena.spent_of_remove? htasks).get?_eq_none] at hg
      · exact .inl (.inl ⟨task, (Arena.get?_remove?_of_ne htasks he).symm.trans hg, ha⟩)
    · exact .inl (.inr hc)
  | @hold id' task left taken running =>
    obtain ⟨_, htasks, rfl⟩ := unlink?_eq_some taken
    obtain ⟨task, hg, ha⟩ | ⟨hc, task', hh, ha⟩ := ha
    · by_cases he : id = id'
      · subst he
        simp [Queue.get?, (Arena.spent_of_remove? htasks).get?_eq_none] at hg
      · exact .inl (.inl ⟨task, (Arena.get?_remove?_of_ne htasks he).symm.trans hg, ha⟩)
    · cases hh
      obtain rfl : id' = id := Option.some.inj (running.symm.trans hc)
      exact .inl (.inl ⟨task, (Arena.remove?_eq_some htasks).1, ha⟩)

/-- A task is found interrupted only if it was so before, or one of the moves interrupts it. -/
theorem Moves.armed_origin (h : Q.Moves I Q') (hQ : Q.WellFormed) (ha : Q'.Armed id) :
    Q.Armed id ∨ I id := by
  refine h.keeps (P := fun B => B.Armed id → Q.Armed id ∨ I id) hQ .inl
    (fun {A B} hA move ih ha => ?_) ha
  cases move with
  | edit edit => exact (edit.armed_origin hA ha).elim ih .inr
  | enter queued idle =>
    obtain hg | ⟨_, task, hh, _⟩ := ha
    · exact ih (.inl hg)
    · rw [show (A.enter _).held = A.held from rfl, hA.held_eq_none idle] at hh
      cases hh
  | leave =>
    obtain hg | ⟨hc, _⟩ := ha
    · exact ih (.inl hg)
    · cases hc

def Marked (Q : Queue) (id : TaskId) : Prop :=
  (∃ task, Q.get? id = some task ∧ task.armed = true) ∨
    Q.tasks.Spent id ∧ (Q.current = some id → ∃ task, Q.held = some task ∧ task.armed = true)

theorem WellFormed.marked (hQ : Q.WellFormed) (ha : Q.Armed id) : Q.Marked id := by
  obtain hg | ⟨hc, task, hh, ha⟩ := ha
  · exact .inl hg
  · obtain ⟨id', hc', hs⟩ := hQ.held task hh
    obtain rfl : id' = id := Option.some.inj (hc'.symm.trans hc)
    exact .inr ⟨hs, fun _ => ⟨task, hh, ha⟩⟩

theorem Marked.armed (h : Q.Marked id) (hc : Q.current = some id) : Q.Armed id :=
  h.imp_right fun h => ⟨hc, h.2 hc⟩

/-- An interrupt is never taken back. -/
theorem Moves.marked (h : Q.Moves I Q') (hQ : Q.WellFormed) (hm : Q.Marked id) : Q'.Marked id :=
  h.bears (fun heir => heir.armed) hQ hm

/-- A running script that has been interrupted stays so, also if it leaves the queue. -/
theorem Edits.armed (h : Q.Edits I Q') (hQ : Q.WellFormed) (hc : Q.current = some id)
    (ha : Q.Armed id) : Q'.Armed id :=
  (h.moves.marked hQ (hQ.marked ha)).armed ((h.current hQ).trans hc)

end Queue

end TaskLoop
