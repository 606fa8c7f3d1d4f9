import TaskLoop.Proofs.Pass

namespace TaskLoop

variable {a b c : Hole} {w w' : World} {T : Nat → Prop} {q q' : Nat} {id : TaskId} {Q Q' : Queue}
  {k : Pending .verdict}

def Stats.interrupted (stats : Stats) (n : Nat) : Stats :=
  { stats with interrupts := stats.interrupts + n }

namespace World

def stats (w : World) (q : Nat) : Stats := ((w.queue? q).map (·.stats)).getD {}

theorem stats_eq (hQ : w.queue? q = some Q) : w.stats q = Q.stats := by rw [stats, hQ]; rfl

theorem Aside.stats (h : w.Aside T w') (q : Nat) : w'.stats q = w.stats q := by
  rw [World.stats, h.queue? q]
  rfl

theorem lasting_stats (q : Nat) (stats : Stats) (T : Nat → Prop) :
    Lasting T fun w => w.stats q = stats := fun _ _ h h' => (h'.stats q).trans h

theorem stats_setQueue (hQ : w.queue? q = some Q) (h : Q'.stats = Q.stats) (q' : Nat) :
    (w.setQueue q Q').stats q' = w.stats q' := by
  by_cases hq : q = q'
  · subst hq
    rw [stats_eq (queue?_setQueue_self hQ Q'), h, stats_eq hQ]
  · rw [stats, queue?_setQueue_of_ne Q' hq]
    rfl

theorem stats_modifyQueue {f : Queue → Queue} (hf : ∀ Q, (f Q).stats = Q.stats) (w : World)
    (q q' : Nat) : (w.modifyQueue q f).stats q' = w.stats q' := by
  by_cases hq : q = q'
  · subst hq
    rw [stats, stats, queue?_modifyQueue]
    cases w.queue? q with
    | none => rfl
    | some Q => exact hf Q
  · rw [stats, queue?_modifyQueue_of_ne w f hq]
    rfl

theorem stats_modifyQueue_self {f : Queue → Queue} (hQ : w.queue? q = some Q) :
    (w.modifyQueue q f).stats q = (f Q).stats := by
  refine stats_eq ?_
  rw [queue?_modifyQueue, hQ]
  rfl

theorem stats_rewrite (w : World) (q : Nat) (id : TaskId) (task : Task) (q' : Nat) :
    (w.modifyQueue q (·.modify id fun _ => task)).stats q' = w.stats q' :=
  stats_modifyQueue (f := (·.modify id fun _ => task)) (fun _ => rfl) w q q'

@[simp] theorem stats_notify (w : World) (q : Nat) (tag : Tag) (text : String) (q' : Nat) :
    (w.notify q tag text).stats q' = w.stats q' :=
  stats_modifyQueue (f := (·.record ⟨tag, text⟩)) (fun _ => rfl) w q q'

@[simp] theorem stats_named (w : World) (name : String) (q : Nat) (id : TaskId) (q' : Nat) :
    (w.named name q id).stats q' = w.stats q' :=
  (aside_named (T := fun _ => False) w name q id).stats q'

@[simp] theorem stats_push (w : World) (q : Nat) (task : Task) (q' : Nat) :
    (w.push q task).2.stats q' = w.stats q' := by
  unfold push
  split
  · rfl
  · next Q hQ =>
    refine stats_setQueue hQ ?_ q'
    rfl

@[simp] theorem stats_parseAndStart (w : World) (q e : Nat) (source : List UInt8) (q' : Nat) :
    (w.parseAndStart q e source).2.stats q' = w.stats q' := by
  unfold parseAndStart
  split
  · exact stats_notify w q _ _ q'
  · next hload =>
    rw [stats_push, stats_notify, stats_notify]
    exact (aside_loadScript (T := fun _ => False) hload).stats q'

/-- Whether the task is queued and takes interrupts. Watchers take none. -/
def takes (w : World) (q : Nat) (id : TaskId) : Bool :=
  (w.task? q id).any (·.kind != .watcher)

def takers (w : World) (q : Nat) : Nat := (w.order q).countP (w.takes q)

@[simp] theorem stats_installHook (w : World) (q e q' : Nat) :
    (w.installHook q e).stats q' = w.stats q' :=
  (aside_installHook (T := fun _ => True) w q e trivial).stats q'

@[simp] theorem stats_interruptTask (w : World) (q : Nat) (id : TaskId) (q' : Nat) :
    (w.interruptTask q id).2.stats q' = w.stats q' := by
  obtain ⟨hr, _⟩ | ⟨_, after, _, _, ⟨t, _, hr⟩ | ⟨_, hr⟩⟩ := w.interruptTask_cases q id
  · rw [hr]
  · rw [hr, stats_installHook, stats_rewrite]
  · rw [hr, stats_rewrite]

theorem fst_interruptTask (w : World) (q : Nat) (id : TaskId) :
    (w.interruptTask q id).1 = w.takes q id := by
  rw [takes, task?, interruptTask]
  split
  · next h => rw [h]; rfl
  · next task h =>
    rw [h]
    cases task with
    | idle | timer | script | watcher => rfl

theorem takes_interruptTask (w : World) (q : Nat) (id id' : TaskId) :
    (w.interruptTask q id).2.takes q id' = w.takes q id' := by
  rw [takes, takes, (tells_interruptTask w q id).tasks, Option.any_map]
  congr 1
  funext task
  have htold : task.told.kind = task.kind := by cases task <;> rfl
  by_cases hid : id' ∈ [id] <;> simp [hid, htold]

theorem interruptTasks_spec (w : World) (q : Nat) (ids : List TaskId) (n q' : Nat) :
    let r := ids.foldl (fun (n, w) id =>
      let (delivered, w) := w.interruptTask q id
      (if delivered then n + 1 else n, w)) (n, w)
    r.1 = n + ids.countP (w.takes q) ∧ r.2.stats q' = w.stats q' := by
  induction ids generalizing w n with
  | nil => exact ⟨rfl, rfl⟩
  | cons id ids ih =>
    obtain ⟨hcount, hstats⟩ := ih (w.interruptTask q id).2
      (if (w.interruptTask q id).1 then n + 1 else n)
    refine ⟨hcount.trans ?_, hstats.trans (stats_interruptTask w q id q')⟩
    rw [List.countP_congr fun id' _ => by rw [takes_interruptTask], List.countP_cons,
      fst_interruptTask]
    split <;> omega

theorem stats_interruptAll (hQ : w.queue? q = some Q) (watcher : WatcherTask) (q' : Nat) :
    (w.interruptAll q watcher).2.stats q' =
      (w.stats q').interrupted (if q = q' then w.takers q else 0) := by
  obtain ⟨hcount, hstats⟩ := interruptTasks_spec w q (w.order q) 0 q'
  rw [Nat.zero_add] at hcount
  have hall : (w.interruptAll q watcher).2.stats q' =
      ((w.interruptTasks q (w.order q)).2.modifyQueue q
        (·.countInterrupts (w.interruptTasks q (w.order q)).1)).stats q' := stats_push ..
  rw [hall]
  split
  · next hq =>
    subst hq
    obtain ⟨tasks, hQ₁⟩ := (tells_interruptTasks w q (w.order q)).queue Q hQ
    rw [stats_modifyQueue_self hQ₁, stats_eq hQ]
    exact congrArg Q.stats.interrupted hcount
  · next hq =>
    rw [stats, queue?_modifyQueue_of_ne _ _ hq]
    exact hstats

theorem stats_interruptOne (hQ : w.queue? q = some Q) (id : TaskId) (k : Pending .reply) (q' : Nat) :
    (w.interruptOne q Q id k).world.stats q' =
      (w.stats q').interrupted (if q = q' ∧ w.takes q id then 1 else 0) := by
  have htakes := fst_interruptTask w q id
  have hstats := stats_interruptTask w q id q'
  unfold interruptOne
  split
  · obtain ⟨tasks, hQ₁⟩ := (tells_interruptTask w q id).queue Q hQ
    cases ht : w.takes q id with
    | false =>
      rw [ht] at htakes
      simp only [htakes, Bool.false_eq_true, and_false, ↓reduceIte]
      exact hstats
    | true =>
      rw [ht] at htakes
      simp only [htakes, and_true, ↓reduceIte]
      split
      · next hq =>
        subst hq
        rw [deliver, stats_modifyQueue_self hQ₁, stats_eq hQ]
        rfl
      · next hq =>
        rw [deliver, stats, queue?_modifyQueue_of_ne _ _ hq]
        exact hstats
  · next hcontains =>
    have hgone : w.takes q id = false := by
      have hg : Q.get? id = none := by
        simpa [Queue.contains, Queue.get?, Arena.contains] using hcontains
      rw [takes, task?, hQ]
      exact congrArg (Option.any _) hg
    simp only [hgone, Bool.false_eq_true, and_false, ↓reduceIte]
    rfl

end World

def Action.reaches (w : World) (q : Nat) (id : TaskId) : Action → Bool
  | .queue q' (.interrupt name) => q' = q ∧ w.resolve name = id
  | .queue q' (.interruptAll ..) => q' = q
  | _ => false

theorem countP_of_nodup {ids : List TaskId} (h : ids.Nodup) (id : TaskId) (f : TaskId → Bool) :
    ids.countP (fun id' => decide (id = id') && f id') = if id ∈ ids ∧ f id then 1 else 0 := by
  induction ids with
  | nil => simp
  | cons x ids ih =>
    obtain ⟨hx, hnodup⟩ := List.nodup_cons.1 h
    rw [List.countP_cons, ih hnodup]
    by_cases hid : id = x
    · subst hid
      simp [hx]
    · simp [hid]

def Task.bites (now : UInt64) : Task → Bool
  | .idle ⟨_, .watchdog deadline, true, _⟩ => deadline ≤ now
  | _ => false

namespace World

theorem stats_removeTask (hQ : w.queue? q = some Q) (id : TaskId) (k : Pending .reply) (q' : Nat) :
    (w.removeTask q Q id k).world.stats q' = w.stats q' := by
  unfold removeTask
  split
  · rfl
  · next task left taken =>
    have hleft : left.stats = Q.stats := by
      obtain ⟨tasks, _, rfl⟩ := Queue.unlink?_eq_some taken
      rfl
    split
    · exact stats_setQueue hQ (show ({ left with held := some task } : Queue).stats = _ from hleft) q'
    · exact (within_destroy (lasting_stats q' _ fun _ => True) (stats_setQueue hQ hleft q') task
        (fun _ _ => trivial) _).world

/-- Among the actions that run no pass only interrupts are counted. -/
theorem stats_performOnQueue (hw : w.WellFormed) (hQ : w.queue? q = some Q)
    {action : QueueAction Action} (hrun : (Action.queue q action).run? = none) (k : Pending .reply)
    (q' : Nat) : (w.performOnQueue q Q action k).world.stats q' = (w.stats q').interrupted
      ((w.order q').countP fun id => (Action.queue q action).reaches w q' id && w.takes q' id) := by
  have hquiet : ∀ {action : QueueAction Action} {w' : World},
      (∀ id, (Action.queue q action).reaches w q' id = false) → w'.stats q' = w.stats q' →
      w'.stats q' = (w.stats q').interrupted ((w.order q').countP fun id =>
        (Action.queue q action).reaches w q' id && w.takes q' id) := fun hreach hstats => by
    simp [hreach, hstats, Stats.interrupted]
  cases action with
  | idle | timer | startScript =>
    exact hquiet (fun _ => rfl) (by simp [performOnQueue, start, deliver])
  | interruptAll name actions onDrop =>
    simp only [performOnQueue, deliver, stats_named, stats_interruptAll hQ, Action.reaches]
    by_cases hq : q = q'
    · subst hq
      simp [takers]
    · simp [hq]
  | parseAndStart name e source =>
    have hstats := stats_parseAndStart w q e source q'
    refine hquiet (fun _ => rfl) ?_
    simp only [performOnQueue]
    split
    · next h => rw [h] at hstats; exact hstats
    · next h => rw [h] at hstats; exact (stats_named ..).trans hstats
  | interrupt name =>
    simp only [performOnQueue, stats_interruptOne hQ, Action.reaches]
    by_cases hq : q = q'
    · subst hq
      have hmem : w.takes q (w.resolve name) = true → w.resolve name ∈ w.order q := fun ht => by
        obtain ⟨task, ht, _⟩ := Option.any_eq_true _ _ |>.1 ht
        exact (mem_order hw).2 ⟨task, ht⟩
      have hcount := countP_of_nodup (nodup_order hw q) (w.resolve name) (w.takes q)
      simp only [true_and, hcount]
      by_cases ht : w.takes q (w.resolve name) = true
      · simp [ht, hmem ht]
      · simp [ht]
    · simp [hq]
  | remove name => exact hquiet (fun _ => rfl) (stats_removeTask hQ _ k q')
  | contains | kind | count | isEmpty | ids | current | stats | config | now | describe
  | messages | tagged => exact hquiet (fun _ => rfl) rfl
  | stop | clearMessages =>
    refine hquiet (fun _ => rfl) (stats_setQueue hQ ?_ q')
    rfl
  | notify tag text => exact hquiet (fun _ => rfl) (stats_notify w q tag text q')
  | runPass | runOnce | runForever => cases hrun

theorem stats_perform (hw : w.WellFormed) {action : Action} (hrun : action.run? = none)
    (k : Pending .reply) (q : Nat) : (w.perform action k).world.stats q = (w.stats q).interrupted
      ((w.order q).countP fun id => action.reaches w q id && w.takes q id) := by
  have haside : action.onQueue = false → (∀ id, action.reaches w q id = false) →
      (w.perform action k).world.stats q = (w.stats q).interrupted
        ((w.order q).countP fun id => action.reaches w q id && w.takes q id) := by
    intro hqueue hreach
    rw [(within_perform_aside w hqueue k).world.stats q]
    simp [hreach, Stats.interrupted]
  cases action with
  | advance | setClock | unwind | alive | engine => exact haside rfl fun _ => rfl
  | queue q' action =>
    simp only [perform]
    split
    · next hnone =>
      have hreach : ∀ id, (Action.queue q' action).reaches w q id = true → id ∉ w.order q := by
        intro id hreach
        have hq : q' = q := by
          cases action <;> simp_all [Action.reaches]
        rw [order_eq_nil (hq ▸ hnone)]
        simp
      rw [List.countP_eq_zero.2 fun id hm hreaches => hreach id (by simp_all) hm]
      rfl
    · next Q hQ => exact stats_performOnQueue hw hQ hrun k q

theorem bites_iff {task : Task} (hQ : w.queue? q = some Q) (ht : Q.get? id = some task) :
    w.Bites q id ↔ task.bites w.now = true ∧ Q.count ≠ 1 := by
  constructor
  · rintro ⟨Q', t, deadline, hQ', hg, halive, hbody, hnow, hcount⟩
    obtain rfl := Option.some.inj (hQ.symm.trans hQ')
    obtain rfl := Option.some.inj (ht.symm.trans hg)
    obtain ⟨name, body, alive, onDrop⟩ := t
    subst halive hbody
    exact ⟨decide_eq_true hnow, hcount⟩
  · rintro ⟨hbites, hcount⟩
    unfold Task.bites at hbites
    split at hbites
    · next name deadline onDrop =>
      exact ⟨Q, _, deadline, hQ, ht, rfl, rfl, of_decide_eq_true hbites, hcount⟩
    · cases hbites

instance decidableBites (w : World) (q : Nat) (id : TaskId) : Decidable (w.Bites q id) :=
  match hQ : w.queue? q with
  | none => .isFalse fun ⟨_, _, _, hQ', _⟩ => by cases hQ.symm.trans hQ'
  | some Q =>
    match ht : Q.get? id with
    | none => .isFalse fun ⟨_, _, _, hQ', hg, _⟩ => by
        cases hQ.symm.trans hQ'
        cases ht.symm.trans hg
    | some _ => decidable_of_iff _ (bites_iff hQ ht).symm

theorem stats_stepTask {task : Task} (ht : w.task? q id = some task) (q' : Nat) :
    (w.stepTask q id task k).world.stats q' =
      (w.stats q').interrupted (if q = q' ∧ w.Bites q id then w.takers q else 0) := by
  by_cases hbites : w.Bites q id
  · have hcopy := hbites
    obtain ⟨Q, t, deadline, hQ, hg, halive, hbody, hdue, hcount⟩ := hcopy
    obtain rfl := Option.some.inj ((task?_eq_some.2 ⟨Q, hQ, hg⟩).symm.trans ht)
    have hstep : w.stepTask q id (.idle t) k =
        (w.interruptAll q ⟨"", some ⟨interruptedNotice q, none⟩⟩).2.deliver k .done := by
      simp [stepTask, stepIdle, stepWatchdog, halive, hbody, hQ, hcount, UInt64.not_lt.2 hdue]
    rw [hstep, deliver, stats_interruptAll hQ]
    simp only [hbites, and_true]
  · rw [if_neg fun h => hbites h.2]
    have hallows : w.Allows (fun w₁ w₂ => w₂.stats q' = w₁.stats q') q id task :=
      { refl := rfl
        trans := fun h h' => h'.trans h
        log := fun _ _ _ => rfl
        rewrite := fun w₁ task' _ _ => stats_rewrite w₁ q id task' q'
        hook := fun w₁ t _ _ => stats_installHook ..
        alarm := fun hbarks => absurd (bites_of_barks ht hbarks) hbites }
    exact (hallows.stepping (lasting_stats q' _ fun _ => True).robust k).world

theorem bites_enter : (w.modifyQueue q (·.enter id)).Bites q id ↔ w.Bites q id := by
  refine ⟨Bites.of_enter, ?_⟩
  rintro ⟨Q, t, deadline, hQ, hrest⟩
  exact ⟨Q.enter id, t, deadline, queue?_enter_self hQ, hrest⟩

theorem takers_enter : (w.modifyQueue q (·.enter id)).takers q = w.takers q := by
  have htakes : (w.modifyQueue q (·.enter id)).takes q = w.takes q := by
    funext id'
    rw [takes, task?_enter]
    rfl
  have horder : (w.modifyQueue q (·.enter id)).order q = w.order q := by
    refine order_modifyQueue fun _ => ?_
    rfl
  rw [takers, htakes, horder]
  rfl

/-- When a turn begins nothing is counted, unless it is that of a watchdog whose time has come. -/
theorem stats_turn {task : Task} (ht : w.task? q id = some task) (k : Pending .verdict) (q' : Nat) :
    ((w.modifyQueue q (·.enter id)).stepTask q id task k).world.stats q' =
      (w.stats q').interrupted (if q = q' ∧ w.Bites q id then w.takers q else 0) := by
  have hentered : (w.modifyQueue q (·.enter id)).stats q' = w.stats q' := by
    refine stats_modifyQueue (fun _ => ?_) w q q'
    rfl
  rw [stats_stepTask (task?_enter.trans ht), hentered]
  simp only [bites_enter, takers_enter]

theorem stats_timerFired (w : World) (q : Nat) (id : TaskId) (k : Pending .verdict) (q' : Nat) :
    (w.timerFired q id k).world.stats q' = w.stats q' := by
  obtain ⟨w', verdict, heq, rfl | ⟨Q, t, deadline, hQ, _, rfl⟩⟩ := timerFired_eq w q id k
  · rw [heq]
    rfl
  · rw [heq]
    refine stats_setQueue hQ ?_ q'
    rfl

theorem stats_scriptReturned (w : World) (q : Nat) (id : TaskId) (t : ScriptTask) (base : Nat)
    (result : Except CallError Unit) (k : Pending .verdict) (q' : Nat) :
    (w.scriptReturned q id t base result k).world.stats q' = w.stats q' := by
  obtain ⟨w₀, w₁, heq, rfl | ⟨text, rfl⟩, haside⟩ :=
    w.scriptReturned_eq (T := fun _ => True) q id t base result k fun _ => trivial
  · rw [heq]
    exact haside.stats q'
  · rw [heq]
    exact (haside.stats q').trans (stats_notify w q _ _ q')

end World

end TaskLoop
