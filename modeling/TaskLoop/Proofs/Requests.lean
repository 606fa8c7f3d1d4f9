import TaskLoop.Proofs.Stack

namespace TaskLoop

variable {E : Prop} {w w' : World} {q : Nat} {id : TaskId} {Q : Queue} {k : Pending .verdict}

structure Task.Fresh (task : Task) : Prop where
  armed : task.armed = false
  callback : ∀ t, task = .watcher t → t.callback.isSome = true

/-- One thing that is done to a queue on request, short of taking a task out. The stop flag is changed
only where that is allowed. -/
inductive Queue.Grant (E : Prop) (Q : Queue) : Queue → Prop
  | note (stopping : Bool) (stats : Stats) (messages : List Message)
      (kept : stopping = Q.stopping ∨ E) : Grant E Q { Q with stopping, stats, messages }
  | push {task : Task} (fresh : task.Fresh) : Grant E Q (Q.push task).2
  | interrupt {id : TaskId} {task after : Task} (queued : Q.get? id = some task)
      (interrupted : task.interrupted? = some after) : Grant E Q (Q.modify id fun _ => after)

namespace World

inductive Grant (E : Prop) (q : Nat) (w : World) : World → Prop
  | queue {Q Q' : Queue} (hQ : w.queue? q = some Q) (grant : Q.Grant E Q') :
      Grant E q w (w.setQueue q Q')
  | report (message : Message) : Grant E q w (w.logged (.status q message))
  | name (name : String) (id : TaskId) : Grant E q w (w.named name q id)
  | hook (e : Nat) : Grant E q w (w.installHook q e)
  | load {e key : Nat} {source : List UInt8} {w' : World}
      (loaded : w.loadScript q e source = .ok (key, w')) : Grant E q w w'

def Grants (E : Prop) (q : Nat) : World → World → Prop := Relation.ReflTransGen (Grant E q)

/-- All but the changes of the queue itself goes on aside. -/
theorem Grant.aside_or_queue (h : w.Grant E q w') : w.Aside (fun _ => True) w' ∨
    ∃ Q Q', w.queue? q = some Q ∧ Q.Grant E Q' ∧ w' = w.setQueue q Q' := by
  cases h with
  | queue hQ grant => exact .inr ⟨_, _, hQ, grant, rfl⟩
  | report message => exact .inl (aside_logged w rfl)
  | name name id => exact .inl (aside_named w name q id)
  | hook e => exact .inl (aside_installHook w q e trivial)
  | load loaded => exact .inl (aside_loadScript loaded)

theorem Grant.follows (h : w.Grant E q w') : w.Follows (fun _ _ => True) (fun _ => True) w' := by
  obtain haside | ⟨Q, Q', hQ, hgrant, rfl⟩ := h.aside_or_queue
  · exact haside.follows
  · refine follows_setQueue hQ ?_
    cases hgrant with
    | note stopping stats messages => exact .note stopping stats messages
    | push fresh => exact .push _ fresh.armed
    | interrupt queued interrupted =>
      refine .rewrite _ _ (fun old hg => ?_) fun _ _ _ => .inr trivial
      obtain rfl := Option.some.inj (queued.symm.trans hg)
      exact Task.heir_of_interrupted? interrupted

/-- What everything outlasts that is done on request outlasts the requests. -/
theorem Grants.keeps {R : World → Prop} (h : w.Grants E q w') (hw : w.WellFormed) (hR : R w)
    (step : ∀ {w₁ w₂ : World}, w₁.WellFormed → w₁.Grant E q w₂ → R w₁ → R w₂) : R w' := by
  suffices w'.WellFormed ∧ R w' from this.2
  induction h with
  | refl => exact ⟨hw, hR⟩
  | tail _ grant ih => exact ⟨grant.follows.moves.wellFormed ih.1, step ih.1 grant ih.2⟩

theorem Grants.wellFormed (h : w.Grants E q w') (hw : w.WellFormed) : w'.WellFormed :=
  h.keeps hw hw fun hw₁ grant _ => grant.follows.moves.wellFormed hw₁

theorem grants_modifyQueue {f : Queue → Queue} (h : ∀ Q, w.queue? q = some Q → Q.Grant E (f Q)) :
    w.Grants E q (w.modifyQueue q f) := by
  cases hQ : w.queue? q with
  | none =>
    rw [modifyQueue_of_none hQ]
    exact .refl
  | some Q =>
    rw [modifyQueue_eq_setQueue hQ]
    exact .single (.queue hQ (h Q hQ))

theorem grants_notify (w : World) (q : Nat) (tag : Tag) (text : String) :
    w.Grants E q (w.notify q tag text) :=
  .tail (grants_modifyQueue fun Q _ => .note Q.stopping Q.stats (Q.messages ++ [⟨tag, text⟩]) (.inl rfl))
    (.report ⟨tag, text⟩)

theorem grants_countInterrupts (w : World) (q n : Nat) :
    w.Grants E q (w.modifyQueue q (·.countInterrupts n)) :=
  grants_modifyQueue fun Q _ => .note Q.stopping _ Q.messages (.inl rfl)

theorem grants_push (w : World) (q : Nat) {task : Task} (fresh : task.Fresh) :
    w.Grants E q (w.push q task).2 := by
  unfold push
  split
  · exact .refl
  · next hQ => exact .single (.queue hQ (.push fresh))

theorem grants_interruptTask (w : World) (q : Nat) (id : TaskId) :
    w.Grants E q (w.interruptTask q id).2 := by
  obtain ⟨hr, _⟩ | ⟨task, after, ht, hafter, hr⟩ := w.interruptTask_cases q id
  · rw [hr]
    exact .refl
  · have hrewrite : w.Grants E q (w.modifyQueue q (·.modify id fun _ => after)) := by
      refine grants_modifyQueue fun Q hQ => ?_
      have hg : Q.get? id = some task := by rwa [task?, hQ] at ht
      exact .interrupt hg hafter
    obtain ⟨t, _, hr⟩ | ⟨_, hr⟩ := hr
    · rw [hr]
      exact .tail hrewrite (.hook _)
    · rw [hr]
      exact hrewrite

theorem grants_interruptTasks (w : World) (q : Nat) (ids : List TaskId) (n : Nat) :
    w.Grants E q (ids.foldl (fun (n, w) id =>
      let (delivered, w) := w.interruptTask q id
      (if delivered then n + 1 else n, w)) (n, w)).2 := by
  induction ids generalizing w n with
  | nil => exact .refl
  | cons id ids ih => exact (grants_interruptTask w q id).trans (ih _ _)

theorem grants_interruptAll (w : World) (q : Nat) {watcher : WatcherTask}
    (h : watcher.callback.isSome = true) : w.Grants E q (w.interruptAll q watcher).2 :=
  ((grants_interruptTasks w q _ 0).trans (grants_countInterrupts _ q _)).trans
    (grants_push _ q ⟨rfl, fun t ht => by cases ht; exact h⟩)

theorem grants_parseAndStart (w : World) (q e : Nat) (source : List UInt8) :
    w.Grants E q (w.parseAndStart q e source).2 := by
  unfold parseAndStart
  split
  · exact grants_notify w q _ _
  · next hload =>
    exact (((Relation.ReflTransGen.single (.load hload)).trans (grants_notify _ q _ _)).trans
      (grants_notify _ q _ _)).trans (grants_push _ q ⟨rfl, nofun⟩)

end World

def Action.removed? : Action → Option String
  | .queue _ (.remove name) => some name
  | _ => none

theorem Action.eq_of_removed? {action : QueueAction Action} {name : String}
    (h : (Action.queue q action).removed? = some name) : action = .remove name := by
  cases action with
  | remove => exact congrArg _ (Option.some.inj h)
  | _ => cases h

namespace World

/-- An action that runs no pass and removes nothing is a request, which is answered at once. -/
theorem exists_performOnQueue_eq {action : QueueAction Action} (hQ : w.queue? q = some Q)
    (hrun : (Action.queue q action).run? = none)
    (hremoved : (Action.queue q action).removed? = none) :
    ∃ w' reply, w.Grants (action = .stop) q w' ∧
      ∀ k, w.performOnQueue q Q action k = w'.deliver k reply := by
  have hstart : ∀ (name : String) {task : Task}, task.Fresh → ∃ w' reply,
      w.Grants (action = .stop) q w' ∧ ∀ k, w.start q name task k = w'.deliver k reply :=
    fun name task fresh => ⟨_, _, .tail (grants_push w q fresh) (.name name _), fun _ => rfl⟩
  cases action with
  | idle | timer | startScript => exact hstart _ ⟨rfl, nofun⟩
  | interruptAll name actions onDrop =>
    exact ⟨_, _, .tail (grants_interruptAll w q rfl) (.name name _), fun _ => rfl⟩
  | parseAndStart name e source =>
    have hparse := fun {E} => grants_parseAndStart (E := E) w q e source
    simp only [performOnQueue]
    split
    · next h => rw [h] at hparse; exact ⟨_, _, hparse, fun _ => rfl⟩
    · next h => rw [h] at hparse; exact ⟨_, _, .tail hparse (.name name _), fun _ => rfl⟩
  | interrupt name =>
    have hone := fun {E} => grants_interruptTask (E := E) w q (w.resolve name)
    simp only [performOnQueue, interruptOne]
    split
    · refine ⟨_, _, ?_, fun _ => rfl⟩
      split
      · exact hone.trans (grants_countInterrupts _ q 1)
      · exact hone
    · exact ⟨_, _, .refl, fun _ => rfl⟩
  | contains | kind | count | isEmpty | ids | current | stats | config | now | describe
  | messages | tagged => exact ⟨_, _, .refl, fun _ => rfl⟩
  | stop =>
    exact ⟨_, _, .single (.queue hQ (.note true Q.stats Q.messages (.inr rfl))), fun _ => rfl⟩
  | clearMessages =>
    exact ⟨_, _, .single (.queue hQ (.note Q.stopping Q.stats [] (.inl rfl))), fun _ => rfl⟩
  | notify tag text => exact ⟨_, _, grants_notify w q tag text, fun _ => rfl⟩
  | runPass | runOnce | runForever => cases hrun
  | remove => cases hremoved

theorem within_request {action : QueueAction Action} (hQ : w.queue? q = some Q)
    (hrun : (Action.queue q action).run? = none) (hremoved : (Action.queue q action).removed? = none)
    (k : Pending .reply) :
    (w.performOnQueue q Q action k).Within (w.Grants (action = .stop) q) k := by
  obtain ⟨w', reply, hgrants, heq⟩ := exists_performOnQueue_eq hQ hrun hremoved
  rw [heq]
  exact within_deliver hgrants k reply

/-- How a task is removed: the record of one that is running is held back, and any other is destroyed. -/
inductive Withdraws (w : World) (q : Nat) (Q : Queue) (id : TaskId) (k : Pending .reply) :
    Process → Prop
  | missing (reply : Reply) : Withdraws w q Q id k (w.deliver k reply)
  | holds {task : Task} {left : Queue} (taken : Q.unlink? id = some (task, left))
      (running : Q.current = some id) :
      Withdraws w q Q id k ((w.setQueue q { left with held := some task }).deliver k .ok)
  | destroys {task : Task} {left : Queue} (taken : Q.unlink? id = some (task, left))
      (idle : Q.current ≠ some id) :
      Withdraws w q Q id k ((w.setQueue q left).destroy task (.cons (.doneReply .ok) k))

theorem withdraws_removeTask (w : World) (q : Nat) (Q : Queue) (id : TaskId) (k : Pending .reply) :
    w.Withdraws q Q id k (w.removeTask q Q id k) := by
  unfold removeTask
  split
  · exact .missing _
  · next taken =>
    split
    · next running => exact .holds taken running
    · next idle => exact .destroys taken idle

end World

def Task.barks (now : UInt64) (count : Nat) : Task → Bool
  | .idle t =>
    match t.body with
    | .watchdog deadline => t.alive && count != 1 && deadline ≤ now
    | .steps _ => false
  | _ => false

/-- What the record of a task is rewritten to when its step begins. -/
inductive Task.Turns : Task → Task → Prop
  | idle (t : IdleTask) (rest : List (IdleStep Action)) :
      Turns (.idle t) (.idle { t with body := .steps rest })
  | timer (t : TimerTask) : Turns (.timer t) (.timer { t with fires := t.fires.tail })
  | script (t : ScriptTask) : Turns (.script t) (.script { t with ran := true })
  | watcher (t : WatcherTask) : Turns (.watcher t) (.watcher { t with callback := none })

/-- A task invokes its callback: what is logged, what its record is rewritten to, and what awaits the
end of the callback. -/
inductive Task.Turned (w : World) (q : Nat) (id : TaskId) :
    Task → Event → Task → Activation .routine .verdict → Prop
  | idle (t : IdleTask) (rest : List (IdleStep Action)) (verdict : Verdict) :
      Turned w q id (.idle t) (.step t.name) (.idle { t with body := .steps rest }) (.idle verdict)
  | timer {t : TimerTask} (alive : t.alive = true) (due : t.deadline ≤ w.now) :
      Turned w q id (.timer t) (.fire t.name w.now) (.timer { t with fires := t.fires.tail })
        (.firing q id)
  | watcher {t : WatcherTask} {Q : Queue} {callback : QuietCallback} (hQ : w.queue? q = some Q)
      (only : Q.onlyWatchers = true) (has : t.callback = some callback) :
      Turned w q id (.watcher t) (.quiet t.name Q.count) (.watcher { t with callback := none })
        (.quiet t.name callback.onDrop)

def Activation.StepsTask {a b : Hole} (q : Nat) (id : TaskId) (kind : TaskKind) :
    Activation a b → Prop
  | .idle _ => kind = .idle
  | .firing q' id' => q' = q ∧ id' = id ∧ kind = .timer
  | .quiet _ _ | .rested => kind = .watcher
  | .script q' id' _ _ => q' = q ∧ id' = id ∧ kind = .script
  | _ => False

namespace Task.Turned

variable {task task' : Task} {event : Event} {f : Activation .routine .verdict}
  (h : task.Turned w q id event task' f)

include h

theorem turns : task.Turns task' := by
  cases h with
  | idle t rest => exact .idle t rest
  | timer => exact .timer _
  | watcher => exact .watcher _

theorem ofTurn : event.ofTurn = true := by cases h <;> rfl

theorem stepsTask : f.StepsTask q id task.kind := by
  cases h with
  | idle | watcher => rfl
  | timer => exact ⟨rfl, rfl, rfl⟩

end Task.Turned

/-- The beginning of a step, whatever awaits its end. -/
inductive Start where
  | settles (w : World) (verdict : Verdict)
  | invokes (w : World) (actions : List Action) (f : Activation .routine .verdict)
  | calls (w : World) (e key : Nat) (f : Activation .call .verdict)

namespace Start

def world : Start → World
  | settles w _ | invokes w _ _ | calls w _ _ _ => w

def on (k : Pending .verdict) : Start → Process
  | settles w verdict => w.deliver k verdict
  | invokes w actions f => w.callBack actions (.cons f k)
  | calls w e key f => w.callProtected e key .traceback (.cons f k)

end Start

namespace World

def alarm (w : World) (q : Nat) : World :=
  (w.interruptAll q ⟨"", some ⟨interruptedNotice q, none⟩⟩).2

inductive Opens (w : World) (q : Nat) (id : TaskId) : Task → Start → Prop
  | rests {task : Task} (verdict : Verdict) : Opens w q id task (.settles w verdict)
  | ends (t : IdleTask) : Opens w q id (.idle t) (.settles (w.logged (.step t.name)) .done)
  | bites {task : Task} (barks : task.barks w.now (((w.queue? q).map (·.count)).getD 0) = true) :
      Opens w q id task (.settles (w.alarm q) .done)
  | runs {task task' : Task} {event : Event} {f : Activation .routine .verdict}
      (turned : task.Turned w q id event task' f) (actions : List Action) : Opens w q id task
        (.invokes ((w.logged event).modifyQueue q (·.modify id fun _ => task')) actions f)
  | calls (t : ScriptTask) (base : Nat) {w₁ : World}
      (hooked : w₁ = w.modifyQueue q (·.modify id fun _ => .script { t with ran := true }) ∨
        t.armed = true ∧ w₁ = (w.modifyQueue q (·.modify id fun _ =>
          .script { t with ran := true })).installHook q t.engine) : Opens w q id (.script t)
        (.calls w₁ t.engine t.key (.script q id { t with ran := true } base))

theorem exists_opens_idle (w : World) (q : Nat) (id : TaskId) (t : IdleTask) :
    ∃ s, w.Opens q id (.idle t) s ∧ ∀ k, w.stepIdle q id t k = s.on k := by
  unfold stepIdle
  split
  · exact ⟨_, .rests .done, fun _ => rfl⟩
  · next halive =>
    split
    · next deadline hbody =>
      unfold stepWatchdog
      split
      · exact ⟨_, .rests .done, fun _ => rfl⟩
      · next hcount =>
        split
        · exact ⟨_, .rests .again, fun _ => rfl⟩
        · next hlate =>
          have hbarks : (Task.idle t).barks w.now (((w.queue? q).map (·.count)).getD 0) = true := by
            simpa [Task.barks, hbody, hcount] using ⟨by simpa using halive, UInt64.not_lt.1 hlate⟩
          exact ⟨_, .bites hbarks, fun _ => rfl⟩
    · dsimp only
      split
      · exact ⟨_, .ends t, fun _ => rfl⟩
      · next turn rest _ => exact ⟨_, .runs (.idle t rest turn.verdict) turn.actions, fun _ => rfl⟩

theorem exists_opens_watcher (w : World) (q : Nat) (id : TaskId) (t : WatcherTask) :
    ∃ s, w.Opens q id (.watcher t) s ∧ ∀ k, w.stepWatcher q id t k = s.on k := by
  unfold stepWatcher
  split
  · exact ⟨_, .rests .done, fun _ => rfl⟩
  · next Q hQ =>
    split
    · exact ⟨_, .rests .again, fun _ => rfl⟩
    · next honly =>
      split
      · exact ⟨_, .rests .done, fun _ => rfl⟩
      · next callback hcallback =>
        refine ⟨_, .runs (.watcher hQ (by simpa using honly) hcallback) callback.actions, fun k => ?_⟩
        rw [Start.on, modifyQueue_eq_setQueue (w := w.logged (.quiet t.name Q.count)) hQ]
        rfl

/-- What a step begins with, which is the same whatever awaits its end. -/
theorem exists_opens (w : World) (q : Nat) (id : TaskId) (task : Task) :
    ∃ s, w.Opens q id task s ∧ ∀ k, w.stepTask q id task k = s.on k := by
  cases task with
  | idle t => exact w.exists_opens_idle q id t
  | timer t =>
    simp only [stepTask, stepTimer]
    split
    · exact ⟨_, .rests .done, fun _ => rfl⟩
    · next halive =>
      split
      · exact ⟨_, .rests .again, fun _ => rfl⟩
      · next hlate =>
        exact ⟨_, .runs (.timer (by simpa using halive) (UInt64.not_lt.1 hlate)) _, fun _ => rfl⟩
  | script t =>
    refine ⟨_, .calls t (((w.engine? t.engine).map (·.top)).getD 0) ?_, fun _ => rfl⟩
    dsimp only
    split
    · next harmed => exact .inr ⟨harmed, rfl⟩
    · exact .inl rfl
  | watcher t => exact w.exists_opens_watcher q id t

/-- A relation between worlds that holds of all that is done to the world at the beginning of a step. -/
structure Allows (R : World → World → Prop) (w : World) (q : Nat) (id : TaskId) (task : Task) :
    Prop where
  refl : R w w
  trans {w₁ w₂ w₃ : World} : R w₁ w₂ → R w₂ w₃ → R w₁ w₃
  log (w₁ : World) {event : Event} : event.ofTurn = true → R w₁ (w₁.logged event)
  rewrite (w₁ : World) {task' : Task} : w₁.queue? q = w.queue? q → task.Turns task' →
    R w₁ (w₁.modifyQueue q (·.modify id fun _ => task'))
  hook (w₁ : World) {t : ScriptTask} : task = .script t → t.armed = true →
    R w₁ (w₁.installHook q t.engine)
  alarm : task.barks w.now (((w.queue? q).map (·.count)).getD 0) = true → R w (w.alarm q)

section

variable {task : Task} {s : Start}

theorem Opens.rel {R : World → World → Prop} (h : w.Opens q id task s) (hR : w.Allows R q id task) :
    R w s.world := by
  cases h with
  | rests => exact hR.refl
  | ends => exact hR.log w rfl
  | bites barks => exact hR.alarm barks
  | runs turned => exact hR.trans (hR.log w turned.ofTurn) (hR.rewrite _ rfl turned.turns)
  | calls t base hooked =>
    have hran := hR.rewrite w rfl (.script t)
    obtain rfl | ⟨harmed, rfl⟩ := hooked
    · exact hran
    · exact hR.trans hran (hR.hook _ rfl harmed)

end

end World

inductive Process.Stepping (R : World → Prop) (q : Nat) (id : TaskId) (kind : TaskKind)
    (k : Pending .verdict) : Process → Prop
  | verdict {w : World} {v : Verdict} (world : R w) : Stepping R q id kind k (w.deliver k v)
  | within {a : Hole} {f : Activation a .verdict} {p : Process} (steps : f.StepsTask q id kind)
      (within : p.Within R (.cons f k)) : Stepping R q id kind k p

theorem Process.Stepping.world {R : World → Prop} {kind : TaskKind} {p : Process}
    (h : p.Stepping R q id kind k) : R p.world := by
  cases h with
  | verdict world => exact world
  | within _ within => exact within.world

namespace World

theorem Opens.stepping {T : Nat → Prop} {R : World → Prop} {task : Task} {s : Start}
    (h : w.Opens q id task s) (hR : Robust T R) (hs : R s.world) (k : Pending .verdict) :
    (s.on k).Stepping R q id task.kind k := by
  cases h with
  | rests | ends | bites => exact .verdict hs
  | runs turned actions => exact .within turned.stepsTask (within_callBack hs actions _)
  | calls t base =>
    exact .within (f := .script q id { t with ran := true } base) ⟨rfl, rfl, rfl⟩
      (within_callProtected hR hs t.engine t.key .traceback _)

/-- Every account of what a step begins with is one of the changes that the beginning makes, as long as
callbacks and calls keep to it. -/
theorem Allows.stepping {T : Nat → Prop} {R : World → World → Prop} {task : Task}
    (hR : w.Allows R q id task) (hrobust : Robust T (R w)) (k : Pending .verdict) :
    (w.stepTask q id task k).Stepping (R w) q id task.kind k := by
  obtain ⟨s, hopens, hs⟩ := w.exists_opens q id task
  rw [hs k]
  exact hopens.stepping hrobust (hopens.rel hR) k

/-- How the turn of a task ends with a verdict: a task that is done and queued is taken out of its queue, and
the record of one that has been removed before is destroyed. -/
inductive Closes (w : World) (q : Nat) (id : TaskId) (verdict : Verdict) (k : Pending .pass) :
    Process → Prop
  | missing (none : w.queue? q = none) (stepped : Nat) : Closes w q id verdict k (w.deliver k stepped)
  | completes {Q left : Queue} {task : Task} {next : Option TaskId} {walk : Walk}
      (hQ : w.queue? q = some Q) (done : verdict = .done)
      (taken : Q.leave.unlink? id = some (task, left)) : Closes w q id verdict k
        ((w.setQueue q left).destroy task (.cons (.walk q next walk) k))
  | destroys {Q : Queue} {task : Task} {next : Option TaskId} {walk : Walk}
      (hQ : w.queue? q = some Q) (gone : verdict = .done → Q.get? id = none)
      (held : Q.held = some task) : Closes w q id verdict k
        ((w.setQueue q Q.leave).destroy task (.cons (.walk q next walk) k))
  | leaves {Q : Queue} {next : Option TaskId} {walk : Walk} (hQ : w.queue? q = some Q) :
      Closes w q id verdict k ((w.setQueue q Q.leave).deliver (.cons (.walk q next walk) k) ())

theorem closes_endTurn (w : World) (q : Nat) (id : TaskId) (walk : Walk) (verdict : Verdict)
    (k : Pending .pass) : w.Closes q id verdict k (w.endTurn q id walk verdict k) := by
  unfold endTurn
  split
  · next hnone => exact .missing hnone _
  · next Q hQ =>
    dsimp only
    split
    · next taken => exact .completes hQ rfl taken
    · next verdict _ _ hkept =>
      cases hheld : Q.held with
      | none => exact .leaves hQ
      | some task =>
        refine .destroys hQ (fun hdone => ?_) hheld
        cases hg : Q.get? id with
        | none => rfl
        | some old =>
          have hleft : Q.leave.get? id = some old := hg
          obtain ⟨_, hunlink, _⟩ := Queue.unlink?_of_get? hleft
          exact (hkept old _ hdone hunlink).elim

inductive Abandons (w : World) (q : Nat) (payload : Payload) (k : Pending .pass) : Process → Prop
  | missing (none : w.queue? q = none) : Abandons w q payload k (w.unwind payload k)
  | destroys {Q : Queue} {task : Task} (hQ : w.queue? q = some Q) (held : Q.held = some task) :
      Abandons w q payload k
        ((w.setQueue q Q.leave).destroy task (.cons (.cleanup payload .pass) k))
  | leaves {Q : Queue} (hQ : w.queue? q = some Q) :
      Abandons w q payload k ((w.setQueue q Q.leave).unwind payload k)

theorem abandons_abandonTurn (w : World) (q : Nat) (payload : Payload) (k : Pending .pass) :
    w.Abandons q payload k (w.abandonTurn q payload k) := by
  unfold abandonTurn
  split
  · next hnone => exact .missing hnone
  · next hQ =>
    dsimp only
    split
    · exact .leaves hQ
    · next hheld => exact .destroys hQ hheld

/-- When the callback of a timer has returned, the timer may have its next deadline. -/
theorem timerFired_eq (w : World) (q : Nat) (id : TaskId) (k : Pending .verdict) :
    ∃ w' verdict, w.timerFired q id k = w'.deliver k verdict ∧ (w' = w ∨ ∃ Q t deadline,
      w.queue? q = some Q ∧ Q.record? id = some (.timer t) ∧
        w' = w.setQueue q (Q.modify id fun _ => .timer { t with deadline })) := by
  unfold timerFired
  split
  · exact ⟨w, _, rfl, .inl rfl⟩
  · next Q hQ =>
    split
    · next t hrecord =>
      split
      · exact ⟨_, _, rfl, .inr ⟨Q, t, _, hQ, hrecord, rfl⟩⟩
      · exact ⟨w, _, rfl, .inl rfl⟩
    · exact ⟨w, _, rfl, .inl rfl⟩

def Noted (w w' : World) : Prop :=
  w' = w ∨ ∃ (q : Nat) (f : Queue → Bool) (g : Queue → Stats),
    w' = w.modifyQueue q fun Q => { Q with stopping := f Q, stats := g Q }

end World

def Activation.Awaits {a b : Hole} : Activation a b → Prop
  | .drain _ | .forever _ | .passReply | .runReply => True
  | _ => False

theorem Activation.Awaits.turn? {a b : Hole} {f : Activation a b} (h : f.Awaits) :
    f.turn? = none := by
  cases f <;> trivial

namespace World

/-- How passes go on: they come to an end, or a task is stepped, of a queue that is not in a pass
unless that is allowed. -/
inductive Walks (w : World) (F : Prop) : {a : Hole} → Pending a → Process → Prop
  | rests {a : Hole} {k : Pending a} {w' : World} (noted : w.Noted w') (result : a.Result) :
      Walks w F k (w'.deliver k result)
  | enters {q : Nat} {id : TaskId} {task : Task} {walk : Walk} {k : Pending .pass}
      (queued : w.task? q id = some task) (free : F ∨ ∀ Q, w.queue? q = some Q → Q.current = none) :
      Walks w F k ((w.modifyQueue q (·.enter id)).stepTask q id task (.cons (.turn q id walk) k))
  | awaited {a b : Hole} {f : Activation a b} {k : Pending b} {p : Process} (awaits : f.Awaits)
      (walks : Walks w F (.cons f k) p) : Walks w F k p

section

variable {F : Prop}

theorem walks_finishPass (w : World) (q : Nat) (walk : Walk) (k : Pending .pass) :
    w.Walks F k (w.finishPass q walk k) :=
  .rests (.inr ⟨q, (·.stopping), fun Q => (Q.countPass walk.stepped walk.completed).stats, rfl⟩) _

theorem walks_walkOn (w : World) (q : Nat) (next : Option TaskId) (walk : Walk) (k : Pending .pass)
    (free : F ∨ ∀ Q, w.queue? q = some Q → Q.current = none) :
    w.Walks F k (w.walkOn q next walk k) := by
  unfold walkOn
  split
  · exact walks_finishPass w q walk k
  · split
    · exact walks_finishPass w q walk k
    · next ht => exact .enters ht free

theorem walks_startPass (w : World) (q : Nat) (k : Pending .pass) :
    w.Walks F k (w.startPass q k) := by
  unfold startPass
  split
  · exact .rests (.inl rfl) _
  · next Q hQ =>
    split
    · exact .rests (.inl rfl) _
    · next hc =>
      refine walks_walkOn w q _ _ k (.inr fun Q' hQ' => ?_)
      obtain rfl := Option.some.inj (hQ.symm.trans hQ')
      simpa using hc

theorem walks_drainOn (w : World) (q : Nat) (k : Pending .run) : w.Walks F k (w.drainOn q k) := by
  unfold drainOn
  split
  · exact .rests (.inl rfl) _
  · next Q hQ =>
    split
    · rw [← modifyQueue_eq_setQueue hQ ({ · with stopping := false })]
      exact .rests (.inr ⟨q, fun _ => false, (·.stats), rfl⟩) _
    · split
      · exact .rests (.inl rfl) _
      · exact .awaited (f := .drain q) trivial (walks_startPass w q _)

theorem walks_startRun (w : World) (q : Nat) (k : Pending .run) : w.Walks F k (w.startRun q k) := by
  unfold startRun
  split
  · exact .rests (.inl rfl) _
  · exact walks_drainOn w q k

theorem walks_perform {action : Action} (hrun : action.run? = some q) (w : World)
    (k : Pending .reply) : w.Walks F k (w.perform action k) := by
  cases action with
  | queue q' action =>
    simp only [perform]
    split
    · exact .rests (.inl rfl) _
    · cases action <;> cases hrun
      · exact .awaited (f := .passReply) trivial (walks_startPass w q _)
      · exact .awaited (f := .runReply) trivial (walks_startRun w q _)
      · exact .awaited (f := .forever q) trivial (walks_startRun w q _)
  | _ => cases hrun

end

end World

end TaskLoop
