import TaskLoop.Proofs.Begin
import TaskLoop.Proofs.Reachable

namespace TaskLoop

namespace Task

def told : Task → Task
  | .idle t => .idle { t with alive := false }
  | .timer t => .timer { t with alive := false }
  | .script t => .script { t with armed := true }
  | .watcher t => .watcher t

@[simp] theorem told_told (task : Task) : task.told.told = task.told := by cases task <;> rfl

theorem told_of_interrupted? {task after : Task} (h : task.interrupted? = some after) :
    after = task.told := by
  cases task with
  | watcher => cases h
  | idle | timer | script => cases h; rfl

theorem told_of_interrupted?_eq_none {task : Task} (h : task.interrupted? = none) :
    task.told = task := by
  cases task with
  | watcher => rfl
  | idle | timer | script => cases h

end Task

namespace World

variable {w w₁ w₂ w₃ : World} {q e n : Nat} {id : TaskId} {ids ids' : List TaskId}

/-- The hook of the queue has been put on the machine, which has counted so many instructions, and
none of them since then. -/
def Hooked (w : World) (q e n : Nat) : Prop :=
  ∃ Q, w.queue? q = some Q ∧
    w.pulse e = some (some ⟨.cancel q, Q.config.interval, Q.config.interval⟩, n)

/-- The tasks of a queue with these ids are told to finish, and nothing else becomes of queues. The
machines of the scripts among them are hooked. -/
structure Tells (q : Nat) (ids : List TaskId) (w w' : World) : Prop where
  tasks : ∀ id, w'.task? q id =
    (w.task? q id).map fun task => if id ∈ ids then task.told else task
  queue : ∀ Q, w.queue? q = some Q → ∃ tasks, w'.queue? q = some { Q with tasks }
  others : ∀ q', q ≠ q' → w'.queue? q' = w.queue? q'
  counts : ∀ e probe n, w.pulse e = some (probe, n) → ∃ probe', w'.pulse e = some (probe', n)
  stays : ∀ e n, w.Hooked q e n → w'.Hooked q e n
  hooks : ∀ id t probe n, id ∈ ids → w.task? q id = some (.script t) →
    w.pulse t.engine = some (probe, n) → w'.Hooked q t.engine n

theorem Tells.refl (w : World) (q : Nat) : w.Tells q [] w :=
  ⟨fun id => by simp, fun Q hQ => ⟨Q.tasks, hQ⟩, fun _ _ => rfl, fun _ probe _ h => ⟨probe, h⟩,
    fun _ _ h => h, fun _ _ _ _ h => by simp at h⟩

theorem Tells.trans (h : w₁.Tells q ids w₂) (h' : w₂.Tells q ids' w₃) :
    w₁.Tells q (ids ++ ids') w₃ := by
  refine ⟨fun id => ?_, fun Q hQ => ?_, fun q' hq => (h'.others q' hq).trans (h.others q' hq),
    fun e probe n hp => ?_, fun e n hh => h'.stays e n (h.stays e n hh), ?_⟩
  · rw [h'.tasks, h.tasks, Option.map_map]
    congr 1
    funext task
    by_cases hid : id ∈ ids <;> by_cases hid' : id ∈ ids' <;> simp [hid, hid']
  · obtain ⟨tasks, hQ'⟩ := h.queue Q hQ
    obtain ⟨tasks', hQ''⟩ := h'.queue _ hQ'
    exact ⟨tasks', hQ''⟩
  · obtain ⟨probe', hp'⟩ := h.counts e probe n hp
    exact h'.counts e probe' n hp'
  · intro id t probe n hid ht hp
    obtain hid | hid := List.mem_append.1 hid
    · exact h'.stays _ n (h.hooks id t probe n hid ht hp)
    · -- the record may have been told before, which does not change the engine
      obtain ⟨probe', hp'⟩ := h.counts _ probe n hp
      by_cases hids : id ∈ ids
      · exact h'.hooks id { t with armed := true } probe' n hid
          (by rw [h.tasks, ht]; simp [hids, Task.told]) hp'
      · exact h'.hooks id t probe' n hid (by rw [h.tasks, ht]; simp [hids]) hp'

theorem pulse_installHook {Q : Queue} (hQ : w.queue? q = some Q) {probe : Option Probe}
    (hp : w.pulse e = some (probe, n)) : (w.installHook q e).Hooked q e n := by
  have hmax : max Q.config.interval 1 = Q.config.interval := by simp only [QueueConfig.interval]; omega
  refine ⟨Q, by rw [installHook, hQ]; exact hQ, ?_⟩
  rw [installHook, hQ]
  obtain ⟨E, hE, hpulse⟩ := Option.bind_eq_some_iff.1 hp
  simp [pulse_modifyEngine, hE, hpulse, hmax]

theorem hooked_installHook {e' : Nat} (h : w.Hooked q e n) : (w.installHook q e').Hooked q e n := by
  obtain ⟨Q, hQ, hp⟩ := h
  by_cases he : e' = e
  · subst he
    exact pulse_installHook hQ hp
  · refine ⟨Q, by rw [installHook, hQ]; exact hQ, ?_⟩
    rw [installHook, hQ]
    exact (pulse_modifyEngine_of_ne w _ he).trans hp

theorem pulse_installHook_of_ne {e' : Nat} (he : e' ≠ e) :
    (w.installHook q e').pulse e = w.pulse e := by
  unfold installHook
  split
  · rfl
  · exact pulse_modifyEngine_of_ne w _ he

@[simp] theorem queue?_installHook (w : World) (q e q' : Nat) :
    (w.installHook q e).queue? q' = w.queue? q' := by
  unfold installHook
  split <;> rfl

theorem hooked_modifyQueue {f : Queue → Queue} (hf : ∀ Q, (f Q).config = Q.config)
    (h : w.Hooked q e n) : (w.modifyQueue q f).Hooked q e n := by
  obtain ⟨Q, hQ, hp⟩ := h
  exact ⟨f Q, by rw [queue?_modifyQueue, hQ]; rfl, by rw [pulse_modifyQueue, hp, hf]⟩

theorem tells_of_untold (h : ∀ task, w.task? q id = some task → task.interrupted? = none) :
    w.Tells q [id] w := by
  refine ⟨fun id' => ?_, fun Q hQ => ⟨Q.tasks, hQ⟩, fun _ _ => rfl, fun _ probe _ hp => ⟨probe, hp⟩,
    fun _ _ hh => hh, fun id' t probe n hid ht => ?_⟩
  · by_cases hid : id' = id
    · subst hid
      cases ht : w.task? q id' with
      | none => rfl
      | some task => simp [Task.told_of_interrupted?_eq_none (h task ht)]
    · simp [hid]
  · rw [List.mem_singleton.1 hid] at ht
    cases h _ ht

theorem task?_modify_told {task : Task} (ht : w.task? q id = some task) (id' : TaskId) :
    (w.modifyQueue q (·.modify id fun _ => task.told)).task? q id' =
      (w.task? q id').map fun task => if id' ∈ [id] then task.told else task := by
  rw [task?_modifyQueue]
  by_cases hid : id' = id
  · simp [hid, ht]
  · simp [hid]

theorem tells_modifyQueue {task : Task} (ht : w.task? q id = some task)
    (hscript : ∀ t, task.told ≠ .script t) :
    w.Tells q [id] (w.modifyQueue q (·.modify id fun _ => task.told)) := by
  refine ⟨task?_modify_told ht, fun Q hQ => ⟨_, by rw [queue?_modifyQueue, hQ]; rfl⟩,
    fun q' hq => queue?_modifyQueue_of_ne w _ hq, fun e probe n hp => ⟨probe, hp⟩,
    fun e n hh => hooked_modifyQueue (fun Q => rfl) hh, fun id' t probe n hid ht' => ?_⟩
  rw [List.mem_singleton.1 hid, ht] at ht'
  cases ht'
  exact absurd rfl (hscript { t with armed := true })

theorem tells_installHook {t : ScriptTask} (ht : w.task? q id = some (.script t)) :
    w.Tells q [id]
      ((w.modifyQueue q (·.modify id fun _ => (Task.script t).told)).installHook q t.engine) := by
  obtain ⟨Q, hQ, _⟩ := task?_eq_some.1 ht
  have hqueue : (w.modifyQueue q (·.modify id fun _ => (Task.script t).told)).queue? q =
      some (Q.modify id fun _ => (Task.script t).told) := by rw [queue?_modifyQueue, hQ]; rfl
  refine ⟨fun id' => by rw [task?_installHook, task?_modify_told ht],
    fun Q' hQ' => ⟨(Q.modify id fun _ => (Task.script t).told).tasks, ?_⟩, fun q' hq => ?_,
    fun e probe n hp => ?_, fun e n hh => ?_, fun id' t' probe n hid ht' hp => ?_⟩
  · cases hQ.symm.trans hQ'
    exact (queue?_installHook ..).trans hqueue
  · rw [queue?_installHook, queue?_modifyQueue_of_ne w _ hq]
  · by_cases he : t.engine = e
    · subst he
      obtain ⟨_, _, hp'⟩ := pulse_installHook (w := w.modifyQueue q _) hqueue hp
      exact ⟨_, hp'⟩
    · exact ⟨probe, (pulse_installHook_of_ne he).trans hp⟩
  · exact hooked_installHook (hooked_modifyQueue (fun Q => rfl) hh)
  · rw [List.mem_singleton.1 hid, ht] at ht'
    cases ht'
    exact pulse_installHook (w := w.modifyQueue q _) hqueue hp

theorem tells_interruptTask (w : World) (q : Nat) (id : TaskId) :
    w.Tells q [id] (w.interruptTask q id).2 := by
  obtain ⟨hr, hnone⟩ | ⟨task, after, ht, hafter, hr⟩ := w.interruptTask_cases q id
  · rw [hr]
    exact tells_of_untold hnone
  · obtain rfl := Task.told_of_interrupted? hafter
    obtain ⟨t, htold, hr⟩ | ⟨hscript, hr⟩ := hr
    · rw [hr]
      cases task with
      | script => cases htold; exact tells_installHook ht
      | idle | timer | watcher => cases htold
    · rw [hr]
      exact tells_modifyQueue ht hscript

theorem tells_foldl (q : Nat) (ids : List TaskId) (w : World) (n : Nat) :
    w.Tells q ids (ids.foldl (fun (n, w) id =>
      let (delivered, w) := w.interruptTask q id
      (if delivered then n + 1 else n, w)) (n, w)).2 := by
  induction ids generalizing w n with
  | nil => exact Tells.refl w q
  | cons id ids ih => exact (tells_interruptTask w q id).trans (ih _ _)

theorem tells_interruptTasks (w : World) (q : Nat) (ids : List TaskId) :
    w.Tells q ids (w.interruptTasks q ids).2 := tells_foldl q ids w 0

structure Arms (q : Nat) (id : TaskId) (t : ScriptTask) (w w' : World) : Prop where
  task : w'.task? q id = some (.script { t with armed := true })
  hook : ∀ probe n, w.pulse t.engine = some (probe, n) → w'.Hooked q t.engine n

variable {t : ScriptTask}

theorem Tells.arms (h : w₁.Tells q ids w₂) (hid : id ∈ ids)
    (ht : w₁.task? q id = some (.script t)) : w₁.Arms q id t w₂ :=
  ⟨by rw [h.tasks, ht]; simp [hid, Task.told], fun probe n hp => h.hooks id t probe n hid ht hp⟩

theorem Arms.note (h : w.Arms q id t w₁) {f : Queue → Queue}
    (hf : ∀ Q, (f Q).config = Q.config ∧ (f Q).tasks = Q.tasks) :
    w.Arms q id t (w₁.modifyQueue q f) := by
  refine ⟨?_, fun probe n hp => hooked_modifyQueue (fun Q => (hf Q).1) (h.hook probe n hp)⟩
  obtain ⟨Q, hQ, hg⟩ := task?_eq_some.1 h.task
  refine task?_eq_some.2 ⟨f Q, by rw [queue?_modifyQueue, hQ]; rfl, ?_⟩
  rw [Queue.get?, (hf Q).2]
  exact hg

theorem Arms.push (h : w.Arms q id t w₁) (hw : w₁.WellFormed) (task : Task) :
    w.Arms q id t (w₁.push q task).2 := by
  obtain ⟨Q, hQ, hg⟩ := task?_eq_some.1 h.task
  have hpush : (w₁.push q task).2 = w₁.setQueue q (Q.push task).2 := by rw [World.push, hQ]
  have hself := queue?_setQueue_self hQ (Q.push task).2
  rw [hpush]
  refine ⟨task?_eq_some.2 ⟨_, hself, ?_⟩, fun probe n hp => ?_⟩
  · exact Arena.get?_insert_of_get? (hw q Q hQ).tasks hg task
  · obtain ⟨Q', hQ', hp'⟩ := h.hook probe n hp
    obtain rfl := Option.some.inj (hQ.symm.trans hQ')
    exact ⟨_, hself, hp'⟩

theorem Arms.named (h : w.Arms q id t w₁) (name : String) (q' : Nat) (id' : TaskId) :
    w.Arms q id t (w₁.named name q' id') := by
  unfold World.named
  split
  · exact h
  · exact ⟨h.task, h.hook⟩

theorem arms_interruptAll (hw : w.WellFormed) (ht : w.task? q id = some (.script t))
    (watcher : WatcherTask) : w.Arms q id t (w.interruptAll q watcher).2 := by
  obtain ⟨Q, hQ, hg⟩ := task?_eq_some.1 ht
  have hid : id ∈ Q.order := ((hw q Q hQ).order id).2 ⟨_, hg⟩
  have harms := (tells_interruptTasks w q Q.order).arms hid ht
  have hwell := (follows_interruptTasks (I := fun _ _ => True) (T := fun _ => True) q Q.order w 0
    (fun _ _ _ => trivial) fun _ _ _ _ _ => trivial).moves.wellFormed hw
  have hnote := follows_countInterrupts (I := fun _ _ => True) (T := fun _ => True)
    (w.interruptTasks q Q.order).2 q (w.interruptTasks q Q.order).1
  rw [interruptAll, hQ]
  exact (harms.note (f := (·.countInterrupts (w.interruptTasks q Q.order).1))
    fun Q => ⟨rfl, rfl⟩).push (hnote.moves.wellFormed hwell) _

end World

namespace Process

variable {p p' : Process} {q : Nat} {id : TaskId}

theorem arms_bites (h : p.Sound) {t : ScriptTask} {dog : TaskId}
    (ht : p.world.task? q id = some (.script t)) (hbegins : p.Begins q dog)
    (hbites : p.world.Bites q dog) : p.world.Arms q id t p.step.world := by
  obtain ⟨Q, t₀, deadline, hQ, hg, halive, hbody, hnow, hcount⟩ := hbites
  have hidle := h.current_of_begins hbegins hQ
  have henters := hbegins.enters
  generalize p.step = p' at henters ⊢
  cases henters with
  | @intro task walk k queued turns =>
    obtain rfl : task = .idle t₀ :=
      Option.some.inj (queued.symm.trans (World.task?_eq_some.2 ⟨Q, hQ, hg⟩))
    have hself : (p.world.modifyQueue q (·.enter dog)).queue? q = some (Q.enter dog) := by
      rw [World.queue?_modifyQueue, hQ]
      rfl
    have hentered := World.wellFormed_enter h.queues hQ hidle hg
    have harms := World.arms_interruptAll hentered (World.task?_enter.trans ht)
      ⟨"", some ⟨World.interruptedNotice q, none⟩⟩
    have hstep : (p.world.modifyQueue q (·.enter dog)).stepTask q dog (.idle t₀)
        (.cons (.turn q dog walk) k) = ((p.world.modifyQueue q (·.enter dog)).interruptAll q
          ⟨"", some ⟨World.interruptedNotice q, none⟩⟩).2.deliver (.cons (.turn q dog walk) k)
            .done := by
      have hlate : ¬ (p.world.modifyQueue q (·.enter dog)).now < deadline := UInt64.not_lt.2 hnow
      have hmany : ¬ (some (Q.enter dog).count).getD 0 = 1 := hcount
      simp only [World.stepTask, World.stepIdle, halive, hbody, World.stepWatchdog, hself,
        Option.map_some, if_neg hmany, if_neg hlate]
      rfl
    rw [hstep]
    exact ⟨harms.task, harms.hook⟩

/-- A script that a transition interrupts is told to finish by it, and its machine hooked. -/
theorem Sound.arms (h : p.Sound) (hi : p.Interrupts q id) :
    ∃ t, p.world.task? q id = some (.script t) ∧ p.world.Arms q id t p.step.world := by
  obtain ⟨action, k, hcontrol, ⟨t, ht⟩, haction⟩ | ⟨⟨t, ht⟩, dog, hbegins, hbites⟩ := hi
  · refine ⟨t, ht, ?_⟩
    obtain ⟨Q, hQ, hg⟩ := World.task?_eq_some.1 ht
    obtain ⟨w, control⟩ := p
    cases hcontrol
    cases action with
    | queue q' action =>
      cases action with
      | interrupt name =>
        obtain ⟨rfl, rfl⟩ := haction
        have hcontains : Q.contains (w.resolve name) = true := by
          simp [Queue.contains, Arena.contains, show Q.tasks.get? (w.resolve name) = _ from hg]
        have harms := (World.tells_interruptTask w q' (w.resolve name)).arms (by simp) ht
        simp only [Process.step, World.perform, hQ, World.performOnQueue, World.interruptOne,
          hcontains, if_true]
        generalize w.interruptTask q' (w.resolve name) = r at harms ⊢
        obtain ⟨delivered, w₁⟩ := r
        cases delivered with
        | true => exact harms.note (f := (·.countInterrupts 1)) fun Q => ⟨rfl, rfl⟩
        | false => exact harms
      | interruptAll name actions onDrop =>
        obtain rfl := haction
        simp only [Process.step, World.perform, hQ, World.performOnQueue]
        exact (World.arms_interruptAll h.queues ht _).named name _ _
      | _ => exact haction.elim
    | _ => exact haction.elim
  · exact ⟨t, ht, arms_bites h ht hbegins hbites⟩

theorem Sound.marked_next (h : p.Sound) (hnext : p.Next p')
    (hm : ∀ Q, p.world.queue? q = some Q → Q.Marked id) :
    ∀ Q, p'.world.queue? q = some Q → Q.Marked id := by
  intro Q' hQ'
  cases hnext with
  | step =>
    obtain ⟨Q, hQ, hmoves⟩ := World.queue?_of_rel (h.step.1.queues q) hQ'
    exact hmoves.marked (h.queues q Q hQ) (hm Q hQ)
  | command _ command => exact hm Q' (World.queue?_begin hQ')

theorem Sound.marked_later (h : p.Sound) (hlater : p.Later p')
    (hm : ∀ Q, p.world.queue? q = some Q → Q.Marked id) :
    ∀ Q, p'.world.queue? q = some Q → Q.Marked id := by
  induction hlater with
  | refl => exact hm
  | tail hlater hnext ih => exact (h.later hlater).marked_next hnext ih

theorem Interrupted.marked {Q : Queue} (h : p.Interrupted q id) (hQ : p.world.queue? q = some Q) :
    Q.Marked id := by
  obtain ⟨p₀, hp₀, hi, hlater⟩ := h
  obtain ⟨t, _, harms⟩ := hp₀.sound.arms hi
  refine hp₀.step.sound.marked_later hlater (fun Q' hQ' => .inl ?_) Q hQ
  obtain ⟨Q'', hQ'', hg⟩ := World.task?_eq_some.1 harms.task
  obtain rfl := Option.some.inj (hQ'.symm.trans hQ'')
  exact ⟨_, hg, rfl⟩

/-- Whether a script in the middle of its step has been interrupted stands in its record. -/
theorem Reachable.interrupted_iff (h : p.Reachable) (hm : (q, id) ∈ p.control.turns) :
    p.Interrupted q id ↔ p.world.Armed q id := by
  refine ⟨fun hi => ?_, h.interrupted⟩
  obtain ⟨Q, hQ, hc, _⟩ := h.sound.ready.running hm
  exact ⟨Q, hQ, (hi.marked hQ).armed hc⟩

end Process

end TaskLoop
