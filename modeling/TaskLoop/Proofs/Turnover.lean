import TaskLoop.Proofs.Quiescence

namespace TaskLoop

open scoped List

variable {a b c : Hole} {w w' w₁ w₂ w₃ : World} {T : Nat → Prop} {L : Nat → TaskId → Prop}
  {q : Nat} {id : TaskId} {p : Process} {Q Q' Q₁ : Queue} {rs : List (Nat × TaskId)}

namespace Task

def pending? : Task → Option Bool
  | .watcher t => some t.callback.isSome
  | _ => none

theorem pending?_interrupted {task after : Task} (h : task.interrupted? = some after) :
    after.pending? = task.pending? := by
  cases task with
  | watcher => cases h
  | idle | timer | script => cases h; rfl

theorem Fresh.pending? {task : Task} (h : task.Fresh) : task.pending? ≠ some false := by
  cases task with
  | watcher t => simp [Task.pending?, h.callback t rfl]
  | idle | timer | script => nofun

end Task

/-- A relation between the records of a task that no interrupt and no beginning of a step disturbs,
but for the callback of a watcher. -/
structure Task.Tame (R : Task → Task → Prop) : Prop where
  refl (task : Task) : R task task
  trans {old mid new : Task} : R old mid → R mid new → R old new
  interrupted {old new : Task} : old.interrupted? = some new → R old new
  idle (t : IdleTask) (rest : List (IdleStep Action)) : R (.idle t) (.idle { t with body := .steps rest })
  timer (t : TimerTask) : R (.timer t) (.timer { t with fires := t.fires.tail })
  script (t : ScriptTask) : R (.script t) (.script { t with ran := true })

theorem Task.tame_pending? : Tame fun old new => new.pending? = old.pending? where
  refl _ := rfl
  trans h h' := h'.trans h
  interrupted := pending?_interrupted
  idle _ _ := rfl
  timer _ := rfl
  script _ := rfl

variable {R : Task → Task → Prop}

namespace Queue

variable {L : TaskId → Prop}

/-- Only the given tasks leave the queue. The records of all others are related, and a new one is to
that of a fresh task. -/
structure Steady (R : Task → Task → Prop) (L : TaskId → Prop) (Q Q' : Queue) : Prop where
  kept : ∀ id task, Q.get? id = some task →
    (∃ task', Q'.get? id = some task' ∧ R task task') ∨ L id ∧ Q'.get? id = none
  fresh : ∀ id task', Q.get? id = none → Q'.get? id = some task' → ∃ task, Task.Fresh task ∧ R task task'

theorem steady_of_get? (hR : Task.Tame R) (h : ∀ id, Q'.get? id = Q.get? id) : Q.Steady R L Q' :=
  ⟨fun id task ht => .inl ⟨task, (h id).trans ht, hR.refl task⟩,
    fun id _ hn ht => by cases hn.symm.trans ((h id).symm.trans ht)⟩

theorem Steady.trans (hR : Task.Tame R) (h : Q.Steady R (fun _ => False) Q₁) (h' : Q₁.Steady R L Q') :
    Q.Steady R L Q' := by
  refine ⟨fun id task ht => ?_, fun id task' hn ht' => ?_⟩
  · obtain ⟨mid, hmid, hgoes⟩ := (h.kept id task ht).resolve_right And.left
    exact (h'.kept id mid hmid).imp_left fun ⟨new, hnew, hgoes'⟩ => ⟨new, hnew, hR.trans hgoes hgoes'⟩
  · cases hmid : Q₁.get? id with
    | none => exact h'.fresh id task' hmid ht'
    | some mid =>
      obtain ⟨task, hfresh, hgoes⟩ := h.fresh id mid hn hmid
      obtain ⟨new, hnew, hgoes'⟩ | ⟨_, hgone⟩ := h'.kept id mid hmid
      · obtain rfl := Option.some.inj (hnew.symm.trans ht')
        exact ⟨task, hfresh, hR.trans hgoes hgoes'⟩
      · cases hgone.symm.trans ht'

theorem steady_push (hR : Task.Tame R) (hQ : Q.WellFormed) {task : Task} (h : task.Fresh) :
    Q.Steady R L (Q.push task).2 := by
  refine ⟨fun id old hg => .inl ⟨old, Arena.get?_insert_of_get? hQ.tasks hg task, hR.refl old⟩,
    fun id new hn hg => ?_⟩
  obtain ⟨_, rfl⟩ | hg := Arena.get?_insert hQ.tasks task hg
  · exact ⟨new, h, hR.refl new⟩
  · cases hn.symm.trans hg

theorem steady_modify (hR : Task.Tame R) {f : Task → Task}
    (h : ∀ task, Q.get? id = some task → R task (f task)) : Q.Steady R L (Q.modify id f) := by
  refine ⟨fun id' old hold => .inl ?_, fun id' new hn hnew => ?_⟩
  · rw [get?_modify]
    split
    · next he => exact ⟨f old, by rw [← he, hold]; rfl, h old (he ▸ hold)⟩
    · exact ⟨old, hold, hR.refl old⟩
  · rw [get?_modify] at hnew
    split at hnew
    · next he => rw [← he, hn] at hnew; cases hnew
    · cases hn.symm.trans hnew

theorem get?_unlink? {task : Task} {left : Queue} (taken : Q.unlink? id = some (task, left))
    (id' : TaskId) : left.get? id' = if id' = id then none else Q.get? id' := by
  obtain ⟨tasks, htasks, rfl⟩ := unlink?_eq_some taken
  split
  · next he => exact he ▸ (Arena.spent_of_remove? htasks).get?_eq_none
  · next hne => exact Arena.get?_remove?_of_ne htasks hne

theorem steady_unlink (hR : Task.Tame R) {task : Task} {left : Queue}
    (taken : Q.unlink? id = some (task, left)) (hL : L id) : Q.Steady R L left := by
  refine ⟨fun id' old hold => ?_, fun id' new hn hnew => ?_⟩
  · rw [get?_unlink? taken]
    split
    · next he => exact .inr ⟨he ▸ hL, rfl⟩
    · exact .inl ⟨old, hold, hR.refl old⟩
  · rw [get?_unlink? taken] at hnew
    split at hnew
    · cases hnew
    · cases hn.symm.trans hnew

end Queue

namespace World

def face (w : World) (q : Nat) (id : TaskId) : Option (Option Bool) :=
  (w.task? q id).map Task.pending?

theorem face_of_task? {task : Task} (h : w.task? q id = some task) : w.face q id = some task.pending? := by
  rw [face, h]
  rfl

abbrev Steady (R : Task → Task → Prop) (L : Nat → TaskId → Prop) : World → World → Prop :=
  Change (fun q => Queue.Steady R (L q)) fun _ => True

theorem task?_eq (hQ : w.queue? q = some Q) (id : TaskId) : w.task? q id = Q.get? id := by
  rw [task?, hQ]
  rfl

theorem Steady.kept {task : Task} (h : w.Steady R L w') (ht : w.task? q id = some task) :
    (∃ task', w'.task? q id = some task' ∧ R task task') ∨ L q id ∧ w'.task? q id = none := by
  obtain ⟨Q, hQ, hg⟩ := task?_eq_some.1 ht
  obtain ⟨Q', hQ', hsteady⟩ := queue?_of_rel_left (h.queues q) hQ
  rw [task?_eq hQ']
  exact hsteady.kept id task hg

theorem Steady.fresh {task' : Task} (h : w.Steady R L w') (hn : w.task? q id = none)
    (ht' : w'.task? q id = some task') : ∃ task, Task.Fresh task ∧ R task task' := by
  obtain ⟨Q', hQ', hg'⟩ := task?_eq_some.1 ht'
  obtain ⟨Q, hQ, hsteady⟩ := queue?_of_rel (h.queues q) hQ'
  exact hsteady.fresh id task' (task?_eq hQ id ▸ hn) hg'

variable (hR : Task.Tame R)

include hR

theorem Aside.steady (h : w.Aside T w') : w.Steady R L w' :=
  (h.mono fun _ _ => trivial).change fun _ _ => Queue.steady_of_get? hR fun _ => rfl

theorem steady_refl (w : World) : w.Steady R L w := (Aside.refl (T := fun _ => False) w).steady hR

theorem Steady.trans (h : w₁.Steady R (fun _ _ => False) w₂) (h' : w₂.Steady R L w₃) :
    w₁.Steady R L w₃ := by
  refine ⟨fun q => ?_, fun e => (h'.machines e).trans (h.machines e), fun _ ht => absurd trivial ht,
    Nat.le_trans h.now h'.now⟩
  have hq := h.queues q
  have hq' := h'.queues q
  generalize w₁.queue? q = o₁ at hq
  generalize w₂.queue? q = o₂ at hq hq'
  generalize w₃.queue? q = o₃ at hq'
  cases hq with
  | none => cases hq' with | none => exact .none
  | some hq => cases hq' with | some hq' => exact .some (hq.trans hR hq')

omit hR in
theorem Steady.mono {M : Nat → TaskId → Prop} (hLM : ∀ q id, L q id → M q id)
    (h : w.Steady R L w') : w.Steady R M w' :=
  Change.mono (fun q _ _ hs => ⟨fun id v hv => (hs.kept id v hv).imp_right (And.imp_left (hLM q id)),
    hs.fresh⟩) (fun _ he => he) h

omit hR in
theorem lasting_steady (w : World) (R : Task → Task → Prop) (L : Nat → TaskId → Prop) (T : Nat → Prop) :
    Lasting T (w.Steady R L) :=
  fun _ _ h h' => h.aside (h'.mono fun _ _ => trivial)

theorem steady_setQueue (hQ : w.queue? q = some Q) (h : Q.Steady R (L q) Q') :
    w.Steady R L (w.setQueue q Q') :=
  change_setQueue (fun _ _ => Queue.steady_of_get? hR fun _ => rfl) hQ h

theorem steady_modifyQueue {f : Queue → Queue} (h : ∀ Q, w.queue? q = some Q → Q.Steady R (L q) (f Q)) :
    w.Steady R L (w.modifyQueue q f) :=
  change_modifyQueue (fun _ _ => Queue.steady_of_get? hR fun _ => rfl) h

theorem steady_rewrite {task : Task} (ht : w.task? q id = some task) {task' : Task} (h : R task task') :
    w.Steady R L (w.modifyQueue q (·.modify id fun _ => task')) := by
  refine steady_modifyQueue hR fun Q hQ => Queue.steady_modify hR fun old hg => ?_
  obtain rfl := Option.some.inj ((task?_eq_some.2 ⟨Q, hQ, hg⟩).symm.trans ht)
  exact h

theorem steady_logged (w : World) (event : Event) : w.Steady R L (w.logged event) :=
  change_logged (fun _ _ => Queue.steady_of_get? hR fun _ => rfl) w event

theorem steady_note (w : World) (q : Nat) {f : Queue → Queue} (h : ∀ Q, (f Q).tasks = Q.tasks) :
    w.Steady R L (w.modifyQueue q f) :=
  steady_modifyQueue hR fun Q _ => Queue.steady_of_get? hR fun id => by
    rw [Queue.get?, h]
    rfl

theorem Noted.steady (h : w.Noted w') : w.Steady R L w' := by
  obtain rfl | ⟨q, _, _, rfl⟩ := h
  · exact steady_refl hR w'
  · exact steady_note hR w q fun _ => rfl

theorem Grant.steady (hw : w.WellFormed) {E : Prop} (h : w.Grant E q w') : w.Steady R L w' := by
  obtain haside | ⟨Q, Q', hQ, hgrant, rfl⟩ := h.aside_or_queue
  · exact haside.steady hR
  · refine steady_setQueue hR hQ ?_
    cases hgrant with
    | note => exact Queue.steady_of_get? hR fun _ => rfl
    | push fresh => exact Queue.steady_push hR (hw q Q hQ) fresh
    | interrupt queued interrupted =>
      refine Queue.steady_modify hR fun task hg => ?_
      obtain rfl := Option.some.inj (queued.symm.trans hg)
      exact hR.interrupted interrupted

theorem Grants.steady (hw : w.WellFormed) {E : Prop} (h : w.Grants E q w') : w.Steady R L w' :=
  (h.keeps hw (steady_refl hR w) fun hw₁ grant hw' => hw'.trans hR (grant.steady hR hw₁)).trans hR
    (steady_refl hR w')

end World

def Action.Removes (w : World) (action : Action) (q : Nat) (id : TaskId) : Prop :=
  (∃ task, w.task? q id = some task) ∧ ∃ name, action = .queue q (.remove name) ∧ w.resolve name = id

namespace World

variable (hR : Task.Tame R)

include hR

theorem steady_removeTask (hQ : w.queue? q = some Q) {id : TaskId}
    (hL : ∀ task, Q.get? id = some task → L q id) (k : Pending .reply) :
    (w.removeTask q Q id k).Within (w.Steady R L) k := by
  have hremoves := withdraws_removeTask w q Q id k
  generalize w.removeTask q Q id k = p at hremoves ⊢
  cases hremoves with
  | missing reply => exact within_deliver (steady_refl hR w) k reply
  | @holds task left taken =>
    have hleft := Queue.steady_unlink hR taken (hL _ (Queue.get?_of_unlink? taken))
    have hheld : Q.Steady R (L q) { left with held := some task } := ⟨hleft.kept, hleft.fresh⟩
    exact within_deliver (steady_setQueue hR hQ hheld) k _
  | destroys taken =>
    have hleft := Queue.steady_unlink hR taken (hL _ (Queue.get?_of_unlink? taken))
    exact (within_destroy (lasting_steady w R L fun _ => True) (steady_setQueue hR hQ hleft) _
      (fun _ _ => trivial) _).lower trivial

/-- An action that runs no pass takes a task out of its queue only by removing it. -/
theorem steady_perform (hw : w.WellFormed) {action : Action} (hrun : action.run? = none)
    (k : Pending .reply) : (w.perform action k).Within (w.Steady R (action.Removes w)) k := by
  cases action with
  | queue q action =>
    simp only [perform]
    split
    · exact within_deliver (steady_refl hR w) k _
    · next Q hQ =>
      cases hremoved : (Action.queue q action).removed? with
      | none => exact (within_request hQ hrun hremoved k).mono (Grants.steady hR hw)
      | some name =>
        obtain rfl := Action.eq_of_removed? hremoved
        exact steady_removeTask hR hQ
          (fun task hg => ⟨⟨task, task?_eq_some.2 ⟨Q, hQ, hg⟩⟩, name, rfl, rfl⟩) k
  | advance | setClock | unwind | alive | engine =>
    exact (within_perform_aside w rfl k).mono (Aside.steady hR)

variable {k : Pending .verdict}

/-- Only a watcher has a callback that its step can take. -/
theorem steady_stepTask {task : Task} (hw : w.WellFormed) (ht : w.task? q id = some task)
    (hkind : task.kind ≠ .watcher) : w.Steady R L (w.stepTask q id task k).world := by
  have hallows : w.Allows (Steady R fun _ _ => False) q id task :=
    { refl := steady_refl hR w
      trans := Steady.trans hR
      log := fun w₁ event _ => steady_logged hR w₁ event
      rewrite := fun w₁ task' hq hturns => by
        refine steady_rewrite hR (show w₁.task? q id = some task by rw [task?, hq]; exact ht) ?_
        cases hturns with
        | idle t rest => exact hR.idle t rest
        | timer t => exact hR.timer t
        | script t => exact hR.script t
        | watcher => exact absurd rfl hkind
      hook := fun w₁ t _ _ =>
        (aside_installHook (T := fun _ => True) w₁ q t.engine trivial).steady hR
      alarm := fun _ => (grants_interruptAll (E := False) w q rfl).steady hR hw }
  have hsteady :=
    (hallows.stepping (lasting_steady w R (fun _ _ => False) fun _ => True).robust k).world
  exact hsteady.trans hR (steady_refl hR _)

end World

def Activation.firing? : Activation a b → Option (Nat × TaskId)
  | .firing q id => some (q, id)
  | _ => none

def Pending.fired? : {a : Hole} → Pending a → Option (Nat × TaskId)
  | _, .outermost => none
  | _, .cons f _ => f.firing?

def Control.fired? : Control → Option (Nat × TaskId)
  | .deliver _ k => k.fired?
  | _ => none

def Activation.isQuiet : Activation a b → Bool
  | .quiet .. => true
  | _ => false

namespace Pending

def ringing : {a : Hole} → Pending a → List (Nat × TaskId)
  | _, .outermost => []
  | _, .cons f k => (if f.isQuiet then k.turns.head?.toList else []) ++ k.ringing

theorem ringing_cons {f : Activation a b} (h : f.isQuiet = false) (k : Pending b) :
    (cons f k).ringing = k.ringing := by simp [ringing, h]

theorem ringing_sublist (f : Activation a b) (k : Pending b) : k.ringing <+ (cons f k).ringing :=
  List.sublist_append_right ..

theorem Over.ringing {k : Pending c} {k' : Pending a} (h : k.Over k') : k'.ringing = k.ringing := by
  induction h with
  | refl => rfl
  | @cons _ _ f _ plain _ ih =>
    have hquiet : f.isQuiet = false := by cases f <;> trivial
    rw [ringing_cons hquiet, ih]

end Pending

namespace Control

def ringing : Control → List (Nat × TaskId)
  | .perform _ k => k.ringing
  | .deliver _ k => k.ringing
  | .unwind _ k => k.ringing
  | _ => []

theorem Over.ringing {k : Pending c} {control : Control} (h : control.Over k) :
    control.ringing = k.ringing := by
  cases control with
  | perform | deliver | unwind => exact Pending.Over.ringing h
  | answered | escaped | aborted => exact h.elim

end Control

namespace Process

structure Fires (w : World) (rs : List (Nat × TaskId)) (q : Nat) (id : TaskId) (p : Process) :
    Prop where
  record : ∃ t : WatcherTask, t.callback.isSome = true ∧ w.task? q id = some (.watcher t) ∧
    p.world.task? q id = some (.watcher { t with callback := none })
  others : ∀ q' id', (q', id') ≠ (q, id) → p.world.task? q' id' = w.task? q' id'
  queue : ∃ Q, p.world.queue? q = some Q ∧ Q.current = some id ∧ ∀ id' ∈ Q.order, Q.Watches id'
  rings : p.control.ringing = (q, id) :: rs

theorem Fires.before (h : p.Fires w rs q id) : w.face q id = some (some true) := by
  obtain ⟨t, hcallback, ht, _⟩ := h.record
  rw [World.face_of_task? ht, Task.pending?, hcallback]

theorem Fires.after (h : p.Fires w rs q id) : p.world.face q id = some (some false) := by
  obtain ⟨t, _, _, ht⟩ := h.record
  exact World.face_of_task? ht

inductive Turnover (R : Task → Task → Prop) (L : Nat → TaskId → Prop) (w : World)
    (rs : List (Nat × TaskId)) (p : Process) : Prop
  | steady (world : w.Steady R L p.world) (rings : p.control.ringing <+ rs)
  | fires {q : Nat} {id : TaskId} (fires : p.Fires w rs q id)

theorem Within.turnover {k : Pending c} (h : p.Within (w.Steady R L) k) :
    p.Turnover R L w k.ringing := .steady h.world (by rw [h.stack.ringing])

theorem Stepping.ringing {R : World → Prop} {kind : TaskKind} {k : Pending .verdict}
    (h : p.Stepping R q id kind k) (hkind : kind ≠ .watcher) : p.control.ringing = k.ringing := by
  cases h with
  | verdict => rfl
  | @within _ f _ steps within =>
    have hquiet : f.isQuiet = false := by
      cases f with
      | quiet => exact absurd steps hkind
      | _ => rfl
    rw [within.stack.ringing, Pending.ringing_cons hquiet]

end Process

namespace World

theorem queue?_enter_self (hQ : w.queue? q = some Q) :
    (w.modifyQueue q (·.enter id)).queue? q = some (Q.enter id) := by
  rw [queue?_modifyQueue, hQ]
  rfl

theorem stepWatcher_eq {t : WatcherTask} {callback : QuietCallback} (hQ : w.queue? q = some Q)
    (honly : Q.onlyWatchers = true) (hcallback : t.callback = some callback) (k : Pending .verdict) :
    w.stepWatcher q id t k =
      ((w.setQueue q (Q.modify id fun _ => .watcher { t with callback := none })).logged
        (.quiet t.name Q.count)).callBack callback.actions (.cons (.quiet t.name callback.onDrop) k) := by
  simp only [stepWatcher, hQ, honly, hcallback, Bool.not_true, Bool.false_eq_true, ↓reduceIte]

theorem fires_stepWatcher {t : WatcherTask} {callback : QuietCallback} {walk : Walk}
    {k : Pending .pass} (hQ : w.queue? q = some Q) (hwf : Q.WellFormed)
    (hg : Q.get? id = some (.watcher t)) (hcallback : t.callback = some callback)
    (honly : Q.onlyWatchers = true) :
    ((w.modifyQueue q (·.enter id)).stepWatcher q id t (.cons (.turn q id walk) k)).Fires w k.ringing
      q id := by
  have hQ₁ : (w.modifyQueue q (·.enter id)).queue? q = some (Q.enter id) := queue?_enter_self hQ
  have honly₁ : (Q.enter id).onlyWatchers = true := honly
  generalize hw₁ : w.modifyQueue q (·.enter id) = w₁ at hQ₁ ⊢
  generalize hQ₂ : (Q.enter id).modify id (fun _ => .watcher { t with callback := none }) = Q₂
  have hget : ∀ id', Q₂.get? id' =
      if id' = id then some (.watcher { t with callback := none }) else Q.get? id' := fun id' => by
    rw [← hQ₂, Queue.get?_modify, show (Q.enter id).get? id = some (.watcher t) from hg]
    rfl
  have hstep : w₁.stepWatcher q id t (.cons (.turn q id walk) k) =
      ((w₁.setQueue q Q₂).logged (.quiet t.name Q.count)).callBack callback.actions
        (.cons (.quiet t.name callback.onDrop) (.cons (.turn q id walk) k)) := by
    rw [stepWatcher_eq hQ₁ honly₁ hcallback, hQ₂]
    rfl
  rw [hstep]
  have hwithin := within_callBack (R := (· = (w₁.setQueue q Q₂).logged (.quiet t.name Q.count)))
    rfl callback.actions (.cons (.quiet t.name callback.onDrop) (.cons (.turn q id walk) k))
  have hself : ((w₁.setQueue q Q₂).logged (.quiet t.name Q.count)).queue? q = some Q₂ :=
    queue?_setQueue_self hQ₁ Q₂
  have hother : ∀ q', q ≠ q' →
      ((w₁.setQueue q Q₂).logged (.quiet t.name Q.count)).queue? q' = w.queue? q' := fun q' hne => by
    rw [queue?_logged, queue?_setQueue_of_ne Q₂ hne, ← hw₁, queue?_modifyQueue_of_ne w _ hne]
  refine ⟨?_, fun q' id' hne => ?_, ⟨Q₂, ?_, ?_, fun id' hm => ?_⟩, ?_⟩
  · refine ⟨t, by rw [hcallback]; rfl, (task?_eq hQ id).trans hg, ?_⟩
    rw [hwithin.world, task?_eq hself, hget, if_pos rfl]
  · rw [hwithin.world]
    by_cases hq : q = q'
    · subst hq
      rw [task?_eq hself, task?_eq hQ, hget, if_neg fun he => hne (by rw [he])]
    · rw [task?, hother q' hq]
      rfl
  · rw [hwithin.world, hself]
  · rw [← hQ₂]
    rfl
  · rw [← hQ₂] at hm
    obtain ⟨task, hg', hkind⟩ := hwf.onlyWatchers_iff.1 honly id' hm
    by_cases he : id' = id
    · exact ⟨.watcher { t with callback := none }, by rw [hget, if_pos he], rfl⟩
    · exact ⟨task, by rw [hget, if_neg he, hg'], hkind⟩
  · rw [hwithin.stack.ringing]
    rfl

/-- A watcher whose turn begins waits while other tasks are queued, and is done if it has nothing left
to invoke. -/
theorem stepWatcher_cases {t : WatcherTask} (walk : Walk) (k : Pending .pass) (hw : w.WellFormed)
    (ht : w.task? q id = some (.watcher t)) {p : Process}
    (hp : (w.modifyQueue q (·.enter id)).stepTask q id (.watcher t) (.cons (.turn q id walk) k) = p) :
    p = (w.modifyQueue q (·.enter id)).deliver (.cons (.turn q id walk) k) .again ∨
      t.callback = none ∧
        p = (w.modifyQueue q (·.enter id)).deliver (.cons (.turn q id walk) k) .done ∨
      p.Fires w k.ringing q id := by
  rw [← hp, stepTask]
  obtain ⟨Q, hQ, hg⟩ := task?_eq_some.1 ht
  cases honly : Q.onlyWatchers with
  | false =>
    have honly₁ : (Q.enter id).onlyWatchers = false := honly
    left
    simp only [stepWatcher, queue?_enter_self hQ, honly₁, Bool.not_false, ↓reduceIte]
  | true =>
    cases hcallback : t.callback with
    | none =>
      have honly₁ : (Q.enter id).onlyWatchers = true := honly
      refine .inr (.inl ⟨rfl, ?_⟩)
      simp only [stepWatcher, queue?_enter_self hQ, honly₁, Bool.not_true, Bool.false_eq_true,
        ↓reduceIte, hcallback]
    | some callback => exact .inr (.inr (fires_stepWatcher hQ (hw q Q hQ) hg hcallback honly))

theorem turnover_deliver (h : w.Steady R L w') (k : Pending a) (result : a.Result) :
    (w'.deliver k result).Turnover R L w k.ringing := .steady h (.refl _)

section

variable (hR : Task.Tame R)

include hR

theorem Walks.turnover {k : Pending a} (h : w.Walks False k p) (hw : w.WellFormed) :
    p.Turnover R L w k.ringing := by
  induction h with
  | rests noted => exact turnover_deliver (noted.steady hR) _ _
  | @enters q id task walk k queued free =>
    have henter : ∀ {L}, w.Steady R L (w.modifyQueue q (·.enter id)) := steady_note hR w q fun _ => rfl
    have ht₁ : (w.modifyQueue q (·.enter id)).task? q id = some task := task?_enter.trans queued
    by_cases hkind : task.kind = .watcher
    · cases task with
      | watcher t =>
        generalize hp : stepTask _ q id (.watcher t) _ = p
        obtain rfl | ⟨_, rfl⟩ | hfires := stepWatcher_cases _ k hw queued hp
        · exact .steady henter (.refl _)
        · exact .steady henter (.refl _)
        · exact .fires hfires
      | idle | timer | script => cases hkind
    · obtain ⟨Q, hQ, hg⟩ := task?_eq_some.1 queued
      have hw₁ := wellFormed_enter hw hQ (free.resolve_left (fun h => h) Q hQ) hg
      refine .steady (henter.trans hR (steady_stepTask hR hw₁ ht₁ hkind)) ?_
      rw [(stepping_enter queued walk k).ringing hkind]
      rfl
  | @awaited _ _ f k _ awaits _ ih =>
    have hquiet : f.isQuiet = false := by cases f <;> trivial
    rwa [Pending.ringing_cons hquiet] at ih

theorem steady_leave (hQ : w.queue? q = some Q) : w.Steady R L (w.setQueue q Q.leave) :=
  steady_setQueue hR hQ (Queue.steady_of_get? hR fun _ => rfl)

theorem turnover_endTurn {k : Pending .pass} {walk : Walk} {verdict : Verdict}
    (hL : verdict = .done → L q id) :
    (w.endTurn q id walk verdict k).Turnover R L w k.ringing := by
  have hdestroy : ∀ {w₁ : World} {next : Option TaskId} {walk : Walk} (task : Task),
      w.Steady R L w₁ → (w₁.destroy task (.cons (.walk q next walk) k)).Turnover R L w k.ringing :=
    fun {w₁ next walk} task h => (within_destroy (lasting_steady w R L fun _ => True) h task
      (fun _ _ => trivial) (.cons (.walk q next walk) k)).turnover
  have hcloses := closes_endTurn w q id walk verdict k
  generalize w.endTurn q id walk verdict k = p at hcloses ⊢
  cases hcloses with
  | missing => exact turnover_deliver (steady_refl hR w) k _
  | @completes Q left task _ _ hQ done taken =>
    have hleave : Q.Steady R (fun _ => False) Q.leave := Queue.steady_of_get? hR fun _ => rfl
    exact hdestroy task (steady_setQueue hR hQ (hleave.trans hR (Queue.steady_unlink hR taken (hL done))))
  | destroys hQ => exact hdestroy _ (steady_leave hR hQ)
  | leaves hQ => exact .steady (steady_leave hR hQ) (.refl _)

theorem turnover_abandonTurn {k : Pending .pass} {payload : Payload} :
    (w.abandonTurn q payload k).Turnover R L w k.ringing := by
  have habandons := abandons_abandonTurn w q payload k
  generalize w.abandonTurn q payload k = p at habandons ⊢
  cases habandons with
  | missing => exact .steady (steady_refl hR w) (.refl _)
  | destroys hQ =>
    exact (within_destroy (lasting_steady w R L fun _ => True) (steady_leave hR hQ) _
      (fun _ _ => trivial) (.cons (.cleanup payload .pass) k)).turnover
  | leaves hQ => exact .steady (steady_leave hR hQ) (.refl _)

theorem turnover_timerFired {k : Pending .verdict}
    (hdeadline : ∀ (t : TimerTask) deadline, R (.timer t) (.timer { t with deadline })) :
    (w.timerFired q id k).Turnover R L w k.ringing := by
  obtain ⟨w', verdict, heq, rfl | ⟨Q, t, deadline, hQ, hrecord, rfl⟩⟩ := timerFired_eq w q id k
  · rw [heq]
    exact turnover_deliver (steady_refl hR _) k verdict
  · rw [heq]
    refine turnover_deliver (steady_setQueue hR hQ (Queue.steady_modify hR fun task hg => ?_)) k _
    obtain rfl : task = .timer t := by simpa [Queue.record?, hg] using hrecord
    exact hdeadline t deadline

theorem turnover_scriptReturned {k : Pending .verdict} {t : ScriptTask} {base : Nat}
    {result : Except CallError Unit} :
    (w.scriptReturned q id t base result k).Turnover R L w k.ringing := by
  obtain ⟨w₀, w₁, heq, rfl | ⟨text, rfl⟩, haside⟩ :=
    w.scriptReturned_eq (T := fun _ => True) q id t base result k fun _ => trivial
  · rw [heq]
    exact turnover_deliver (haside.steady hR) k _
  · have hnote : w.Steady R (fun _ _ => False) (w.modifyQueue q (·.record ⟨.notice, text⟩)) :=
      steady_note hR w q fun _ => rfl
    rw [heq]
    exact turnover_deliver ((hnote.trans hR (steady_logged hR _ _)).trans hR (haside.steady hR)) k _

end

end World

namespace Process

def Removes (p : Process) (q : Nat) (id : TaskId) : Prop :=
  ∃ action k, p.control = .perform action k ∧ action.Removes p.world q id

theorem not_removes (h : p.control.action?.bind Action.removed? = none) : ¬ p.Removes q id := by
  rintro ⟨action, k, hcontrol, _, name, rfl, _⟩
  rw [hcontrol] at h
  cases h

def Completes (p : Process) (q : Nat) (id : TaskId) : Prop :=
  ∃ walk k, p = p.world.deliver (.cons (.turn q id walk) k) .done

def Leaves (p : Process) (q : Nat) (id : TaskId) : Prop := p.Removes q id ∨ p.Completes q id

section

variable (hR : Task.Tame R)

include hR

theorem turnover_quiet (name : String) (onDrop : Option (List Action))
    {f : Activation .done .verdict} (hf : f.isQuiet = false) (k : Pending .verdict) :
    (w.destroyCallback name onDrop (.cons f k)).Turnover R L w
      (Pending.cons (.quiet name onDrop) k).ringing := by
  have hwithin := World.within_destroyCallback (World.lasting_steady w R L fun _ => True)
    (World.steady_refl hR w) name onDrop (.cons f k)
  refine .steady hwithin.world ?_
  rw [hwithin.stack.ringing, Pending.ringing_cons hf]
  exact Pending.ringing_sublist (.quiet name onDrop) k

theorem turnover_unwind (f : Activation a b) (payload : Payload) (w : World) (k : Pending b) :
    (f.unwind payload w k).Turnover R L w (Pending.cons f k).ringing := by
  have hrefl : w.Steady R L w := World.steady_refl hR w
  cases f with
  | quiet name onDrop => exact turnover_quiet hR name onDrop rfl k
  | script q id t base =>
    rw [Activation.unwind]
    split
    · exact World.turnover_scriptReturned hR
    · exact .steady hrefl (.refl _)
  | turn q id walk => exact World.turnover_abandonTurn hR
  | machine e call | counted e call op | host e call name turn =>
    refine .steady ((World.aside_modifyMachine (T := fun _ => True) w e fun m => ?_).steady hR) (.refl _)
    rfl
  | sweep rest => exact .steady hrefl (.refl _)
  | cleanup => exact .steady hrefl (List.nil_sublist _)
  | _ => exact .steady hrefl (.refl _)

end

/-- A transition takes a task out of its queue only by a removal or by a completion, and the callback
of a watcher only by invoking it. Only when its callback has returned is a timer rewritten to its next
deadline. -/
theorem Sound.turnover_of_tame (h : p.Sound) (hR : Task.Tame R)
    (hdeadline : p.control.fired? = none ∨
      ∀ (t : TimerTask) deadline, R (.timer t) (.timer { t with deadline })) :
    p.step.Turnover R p.Leaves p.world p.control.ringing := by
  obtain ⟨w, control⟩ := p
  have hrefl : ∀ {L}, w.Steady R L w := World.steady_refl hR w
  cases control with
  | perform action k =>
    cases hrun : action.run? with
    | none =>
      have hsteady := World.steady_perform hR h.queues hrun k
      exact .steady (hsteady.world.mono fun q id hr => .inl ⟨action, k, rfl, hr⟩)
        (hsteady.stack.ringing ▸ .refl _)
    | some q => exact (World.walks_perform hrun w k).turnover hR h.queues
  | deliver result k =>
    cases k with
    | outermost => exact .steady hrefl (.refl _)
    | cons f k =>
      rw [step_deliver]
      have hr : (Pending.cons f k).Ready w := h.ready
      generalize hL : Leaves ⟨w, .deliver result (.cons f k)⟩ = L
      have hlast := World.lasting_steady w R L fun _ => True
      have hplain : f.Plain → (f.resume result w k).Turnover R L w (Pending.cons f k).ringing :=
        fun hf => by
          rw [(Pending.Over.cons hf .refl).ringing]
          exact (hf.within hlast.robust hrefl (fun _ _ => trivial) result k).turnover
      cases f with
      | routine | unheeded | callReply | doneReply | machine | counted | host | pacer | triggered =>
        exact hplain trivial
      | idle | rested | passReply | runReply => exact World.turnover_deliver hrefl k _
      | firing q id => exact World.turnover_timerFired hR (hdeadline.resolve_left nofun)
      | quiet name onDrop => exact turnover_quiet hR name onDrop rfl k
      | script q id t base => exact World.turnover_scriptReturned hR
      | turn q id walk =>
        refine World.turnover_endTurn hR fun hdone => ?_
        subst hdone
        rw [← hL]
        exact .inr ⟨walk, k, rfl⟩
      | walk q next walk =>
        have hidle := fun Q hQ => (hr.tail rfl).current_eq_none (Q := Q) hQ hr.fits
        exact (w.walks_walkOn q next walk k (.inr hidle)).turnover hR h.queues
      | drain q => exact (w.walks_drainOn q k).turnover hR h.queues
      | forever q =>
        cases result with
        | stopped => exact World.turnover_deliver hrefl k _
        | drained => exact (w.walks_startRun q (.cons (.forever q) k)).turnover hR h.queues
      | sweep rest =>
        cases rest with
        | nil => exact World.turnover_deliver hrefl k _
        | cons task rest =>
          exact (World.within_destroy hlast hrefl task (fun _ _ => trivial) (.cons (.sweep rest) k)).turnover
      | cleanup payload hole => exact .steady hrefl (.refl _)
  | unwind payload k =>
    cases k with
    | outermost => exact .steady hrefl (.refl _)
    | cons f k => rw [step_unwind]; exact turnover_unwind hR f payload w k
  | answered | escaped | aborted => exact .steady hrefl (.refl _)

theorem Sound.turnover (h : p.Sound) : p.step.Turnover (fun old new => new.pending? = old.pending?)
    p.Leaves p.world p.control.ringing :=
  h.turnover_of_tame Task.tame_pending? (.inr fun _ _ => rfl)

/-- A task that is queued no more after a transition was removed or is done. -/
theorem Sound.leaves {task : Task} (h : p.Sound) (ht : p.world.task? q id = some task)
    (hgone : p.step.world.task? q id = none) : p.Leaves q id := by
  cases h.turnover with
  | steady world =>
    obtain ⟨_, hnew, _⟩ | ⟨hleaves, _⟩ := world.kept ht
    · cases hnew.symm.trans hgone
    · exact hleaves
  | @fires q' id' fires =>
    by_cases he : (q, id) = (q', id')
    · cases he
      obtain ⟨_, _, _, hnew⟩ := fires.record
      cases hnew.symm.trans hgone
    · cases ((fires.others q id he).trans ht).symm.trans hgone

end Process

end TaskLoop
