import TaskLoop.Session.Call

namespace TaskLoop.World

def interruptedNotice (q : Nat) : List Action := [.queue q (.notify .notice "Interrupted.")]

def startWatchdog (w : World) (q : Nat) (timeout : UInt64) : World :=
  let deadline := saturatingAdd w.now timeout
  (w.push q (.idle { name := "", body := .watchdog deadline, onDrop := none })).2

/-- Steps a watchdog: alone in the queue it is done, before its deadline it waits, and then it
interrupts everything. -/
def stepWatchdog (w : World) (q : Nat) (deadline : UInt64) (k : Pending .verdict) : Process :=
  if ((w.queue? q).map (·.count)).getD 0 = 1 then w.deliver k .done
  else if w.now < deadline then w.deliver k .again
  else (w.interruptAll q ⟨"", some ⟨interruptedNotice q, none⟩⟩).2.deliver k .done

/-- Steps an idle task. Its position advances before its actions run. -/
def stepIdle (w : World) (q : Nat) (id : TaskId) (t : IdleTask) (k : Pending .verdict) : Process :=
  if !t.alive then w.deliver k .done
  else match t.body with
    | .watchdog deadline => w.stepWatchdog q deadline k
    | .steps turns =>
      let w := w.logged (.step t.name)
      match nextTurn turns with
      | none => w.deliver k .done
      | some (turn, rest) =>
        (w.modifyQueue q (·.modify id fun _ => .idle { t with body := .steps rest })).callBack
          turn.actions (.cons (.idle turn.verdict) k)

def stepTimer (w : World) (q : Nat) (id : TaskId) (t : TimerTask) (k : Pending .verdict) : Process :=
  if !t.alive then w.deliver k .done
  else if w.now < t.deadline then w.deliver k .again
  else
    ((w.logged (.fire t.name w.now)).modifyQueue q
      (·.modify id fun _ => .timer { t with fires := t.fires.tail })).callBack
        (t.fires.headD []) (.cons (.firing q id) k)

def nextDeadline (w : World) (policy : RepeatPolicy) (deadline interval : UInt64) : UInt64 :=
  match policy with
  | .fromDeadline => saturatingAdd deadline interval
  | .fromNow => saturatingAdd w.now interval

def timerFired (w : World) (q : Nat) (id : TaskId) (k : Pending .verdict) : Process :=
  match w.queue? q with
  | none => w.deliver k .done
  | some queue =>
    match queue.record? id with
    | some (.timer t) =>
      match t.interval, t.alive with
      | some interval, true =>
        let deadline := w.nextDeadline queue.config.repeatPolicy t.deadline interval
        (w.setQueue q (queue.modify id fun _ => .timer { t with deadline })).deliver k .again
      | _, _ => w.deliver k .done
    | _ => w.deliver k .done

/-- Steps a script: one protected call. An interrupted script puts its hook back first, which
another script may have cleared. -/
def stepScript (w : World) (q : Nat) (id : TaskId) (t : ScriptTask) (k : Pending .verdict) :
    Process :=
  let t := { t with ran := true }
  let base := ((w.engine? t.engine).map (·.top)).getD 0
  let w := w.modifyQueue q (·.modify id fun _ => .script t)
  let w := if t.armed then w.installHook q t.engine else w
  w.callProtected t.engine t.key .traceback (.cons (.script q id t base) k)

def scriptArmed (w : World) (q : Nat) (id : TaskId) : Bool :=
  ((w.queue? q >>= (·.record? id)).map Task.armed).getD false

def scriptReturned (w : World) (q : Nat) (id : TaskId) (t : ScriptTask) (base : Nat)
    (result : Except CallError Unit) (k : Pending .verdict) : Process :=
  let w := match result with
    | .ok _ => w
    | .error e => w.notify q .notice e.notice
  let w := w.modifyEngine t.engine (·.setTop base)
  let w := if w.scriptArmed q id then w.modifyEngine t.engine (·.clearHook) else w
  let w := if t.release then w.modifyEngine t.engine (·.unreference t.key) else w
  w.deliver k .done

def stepWatcher (w : World) (q : Nat) (id : TaskId) (t : WatcherTask) (k : Pending .verdict) :
    Process :=
  match w.queue? q with
  | none => w.deliver k .done
  | some queue =>
    if !queue.onlyWatchers then w.deliver k .again
    else match t.callback with
      | none => w.deliver k .done
      | some callback =>
        ((w.setQueue q (queue.modify id fun _ => .watcher { t with callback := none })).logged
          (.quiet t.name queue.count)).callBack callback.actions
            (.cons (.quiet t.name callback.onDrop) k)

def stepTask (w : World) (q : Nat) (id : TaskId) (task : Task) (k : Pending .verdict) : Process :=
  match task with
  | .idle t => w.stepIdle q id t k
  | .timer t => w.stepTimer q id t k
  | .script t => w.stepScript q id t k
  | .watcher t => w.stepWatcher q id t k

end TaskLoop.World
