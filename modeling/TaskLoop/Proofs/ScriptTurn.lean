import TaskLoop.Proofs.Stint

namespace TaskLoop

variable {w : World} {q : Nat} {id : TaskId} {t : ScriptTask} {E : MachineEngine} {P : Program}
  {Q : Queue} {result : Except CallError Unit}

def Pending.turning (q : Nat) (id : TaskId) (walk : Walk) (k : Pending .pass) : Pending .verdict :=
  .cons (.turn q id { walk with visited := id :: walk.visited }) k

def Pending.passes (q : Nat) : Pending .pass := .cons (.drain q) (.cons .runReply .outermost)

def Process.During (K : Pending .verdict) (p : Process) : Prop := K.depth < p.control.depth

namespace MachineEngine

/-- The machine at the beginning of the step: an interrupted script puts the hook of its queue on
it. -/
def arm (E : MachineEngine) (q N : Nat) (armed : Bool) : MachineEngine :=
  if armed then { E with probe := some ⟨.cancel q, N, N⟩ } else E

@[simp] theorem machine_arm (E : MachineEngine) (q N : Nat) (armed : Bool) :
    (E.arm q N armed).machine = E.machine := by
  cases armed with
  | false | true => rfl

/-- The machine at the end of the step. The stack is cut down to the height at which the step found
it, an interrupted script takes the hook away, and the key is freed if the script owns it. -/
def restore (E : MachineEngine) (t : ScriptTask) (base : Nat) (armed : Bool) : MachineEngine where
  machine := if t.release then (E.machine.truncate base).unreference t.key else E.machine.truncate base
  probe := if armed then none else E.probe
  hosts := E.hosts

end MachineEngine

namespace World

structure HasScript (w : World) (q : Nat) (id : TaskId) (Q : Queue) (t : ScriptTask)
    (E : MachineEngine) (P : Program) : Prop where
  queue : w.queue? q = some Q
  task : Q.get? id = some (.script t)
  engine : w.engine? t.engine = some (.machine E)
  program : E.machine.registry.get? t.key = some (.callable P)

def entered (w : World) (q : Nat) (id : TaskId) (t : ScriptTask) : World :=
  (w.modifyQueue q (·.enter id)).modifyQueue q (·.modify id fun _ => .script { t with ran := true })

theorem queue?_entered (hQ : w.queue? q = some Q) (id : TaskId) (t : ScriptTask) :
    (w.entered q id t).queue? q =
      some ((Q.enter id).modify id fun _ => .script { t with ran := true }) := by
  rw [entered, queue?_modifyQueue, queue?_modifyQueue, hQ]
  rfl

namespace HasScript

theorem size (h : w.HasScript q id Q t E P) : t.engine < (w.entered q id t).engines.size :=
  (Array.getElem?_eq_some_iff.1 h.engine).1

theorem get?_entered (h : w.HasScript q id Q t E P) :
    ((Q.enter id).modify id fun _ => .script { t with ran := true }).get? id =
      some (.script { t with ran := true }) := by
  rw [Queue.get?_modify, if_pos rfl, show (Q.enter id).get? id = _ from h.task]
  rfl

/-- Whether the hook of the queue cancels the script stands in its record. -/
theorem cancelled?_entered (h : w.HasScript q id Q t E P) :
    ((w.entered q id t).queue? q >>= (·.cancelled?)) = if t.armed then some id else none := by
  rw [queue?_entered h.queue, Option.bind_eq_bind, Option.bind_some, Queue.cancelled?]
  change Option.filter _ (some id) = _
  rw [Option.filter_some, h.get?_entered]
  rfl

theorem scriptArmed_entered (h : w.HasScript q id Q t E P) :
    (w.entered q id t).scriptArmed q id = t.armed := by
  rw [scriptArmed, queue?_entered h.queue]
  dsimp only [Option.bind_eq_bind, Option.bind_some]
  rw [Queue.record?, h.get?_entered]
  rfl

theorem walkOn_eq (h : w.HasScript q id Q t E P) (walk : Walk) (k : Pending .pass) :
    w.walkOn q (some id) walk k =
      ((w.entered q id t).mount t.engine (E.arm q Q.config.interval t.armed)).deliver
        (.cons (.machine t.engine ⟨P, Program.start, E.machine.allocated, E.machine.stack.height,
            .traceback⟩)
          (.cons (.script q id { t with ran := true } E.machine.stack.height)
            (.turning q id walk k))) () := by
  have hmount : (w.entered q id t).mount t.engine E = w.entered q id t := mount_eq_self h.engine
  have hinterval : max Q.config.interval 1 = Q.config.interval :=
    Nat.max_eq_left (Nat.le_max_left 1 _)
  -- the hook is on the machine when the call begins
  have harm : (if t.armed then (w.entered q id t).installHook q t.engine else w.entered q id t) =
      (w.entered q id t).mount t.engine (E.arm q Q.config.interval t.armed) := by
    rw [MachineEngine.arm]
    split
    · rw [installHook, queue?_entered h.queue id t]
      dsimp only
      rw [← hmount]
      refine (modifyEngine_mount _ _ ?_).trans (congrArg (mount · _ _) hmount.symm)
      change Engine.machine { E with probe := some ⟨.cancel q, max Q.config.interval 1,
        max Q.config.interval 1⟩ } = _
      rw [hinterval]
    · exact hmount.symm
  have htop : (((w.modifyQueue q (·.enter id)).engine? t.engine).map (·.top)).getD 0 =
      E.machine.stack.height := by
    rw [engine?_modifyQueue, h.engine]
    rfl
  rw [walkOn, h.queue]
  dsimp only [Option.bind_eq_bind, Option.bind_some]
  rw [h.task]
  change ((w.modifyQueue q (·.enter id)).stepScript q id t _) = _
  rw [stepScript, htop]
  change World.callProtected (if t.armed then (w.entered q id t).installHook q t.engine else
    w.entered q id t) t.engine t.key .traceback _ = _
  rw [harm, callProtected_eq (machine?_mount h.size _) (by rw [MachineEngine.machine_arm, h.program]),
    MachineEngine.machine_arm]
  rfl

theorem executed_walkOn (h : w.HasScript q id Q t E P) (walk : Walk) (k : Pending .pass) :
    (w.walkOn q (some id) walk k).world.executed t.engine = E.machine.executed := by
  rw [h.walkOn_eq, deliver, executed_mount h.size, MachineEngine.machine_arm]

end HasScript

theorem perform_runOnce {ids : List TaskId} (hQ : w.queue? q = some Q) (hidle : Q.current = none)
    (hgoing : Q.stopping = false) (horder : Q.order = id :: ids) :
    w.perform (.queue q .runOnce) .outermost = w.walkOn q (some id) {} (.passes q) := by
  simp [perform, performOnQueue, startRun, drainOn, startPass, hQ, hidle, hgoing, horder,
    Pending.passes]

def report (w : World) (q : Nat) : Except CallError Unit → World
  | .ok _ => w
  | .error error => w.notify q .notice error.notice

theorem queue?_report (w : World) (q : Nat) (result : Except CallError Unit) (id : TaskId) :
    ((w.report q result).queue? q >>= (·.record? id)) = (w.queue? q >>= (·.record? id)) := by
  cases result with
  | ok => rfl
  | error error =>
    rw [report, notify, queue?_logged, queue?_modifyQueue]
    cases w.queue? q with
    | none | some => rfl

theorem size_report (w : World) (q : Nat) (result : Except CallError Unit) :
    (w.report q result).engines.size = w.engines.size := by
  cases result with
  | ok | error => rfl

theorem scriptArmed_report (w : World) (q : Nat) (id : TaskId) (result : Except CallError Unit) :
    (w.report q result).scriptArmed q id = w.scriptArmed q id := by
  rw [scriptArmed, queue?_report, scriptArmed]

/-- What is left to do when the call has been reported does not depend on its result. -/
theorem scriptReturned_eq_report (w : World) (q : Nat) (id : TaskId) (t : ScriptTask) (base : Nat)
    (result : Except CallError Unit) (k : Pending .verdict) :
    w.scriptReturned q id t base result k =
      (w.report q result).scriptReturned q id t base (.ok ()) k := by
  cases result with
  | ok | error => rfl

theorem report_mount (w : World) (q e : Nat) (E : MachineEngine) (result : Except CallError Unit) :
    (w.mount e E).report q result = (w.report q result).mount e E := by
  cases result with
  | ok | error => rfl

theorem scriptReturned_mount (w : World) (q : Nat) (id : TaskId) (t : ScriptTask)
    (E : MachineEngine) (base : Nat) (result : Except CallError Unit) (k : Pending .verdict) :
    (w.mount t.engine E).scriptReturned q id t base result k =
      ((w.report q result).mount t.engine (E.restore t base (w.scriptArmed q id))).deliver k
        .done := by
  rw [scriptReturned_eq_report, report_mount, ← scriptArmed_report w q id result]
  generalize w.report q result = w
  have htop : (w.mount t.engine E).modifyEngine t.engine (·.setTop base) =
      w.mount t.engine { E with machine := E.machine.truncate base } := modifyEngine_mount _ _ rfl
  have harmed : (w.mount t.engine { E with machine := E.machine.truncate base }).scriptArmed q id =
      w.scriptArmed q id := rfl
  unfold scriptReturned
  dsimp only
  rw [htop, harmed, MachineEngine.restore]
  cases w.scriptArmed q id with
  | false =>
    cases t.release with
    | false => rfl
    | true => exact congrArg (deliver · k .done) (modifyEngine_mount _ _ rfl)
  | true =>
    have hclear : (w.mount t.engine { E with machine := E.machine.truncate base }).modifyEngine
        t.engine (·.clearHook) =
        w.mount t.engine { E with machine := E.machine.truncate base, probe := none } :=
      modifyEngine_mount _ _ rfl
    simp only [if_true, hclear]
    cases t.release with
    | false => rfl
    | true => exact congrArg (deliver · k .done) (modifyEngine_mount _ _ rfl)

end World

end TaskLoop
