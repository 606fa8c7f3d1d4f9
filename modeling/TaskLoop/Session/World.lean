import TaskLoop.Engine
import TaskLoop.Queue.Basic
import TaskLoop.Session.Reply

namespace TaskLoop

structure Naming where
  name : String
  queue : Nat
  id : TaskId

/-- A queue that was dropped is `none`. The newest name and the newest event stand in front. -/
structure World where
  now : UInt64 := 0
  queues : Array (Option Queue) := #[]
  engines : Array Engine := #[]
  names : List Naming := []
  log : List Event := []

namespace World

def queue? (w : World) (q : Nat) : Option Queue := (w.queues[q]?).join

def setQueue (w : World) (q : Nat) (queue : Queue) : World :=
  { w with queues := w.queues.setIfInBounds q (some queue) }

def modifyQueue (w : World) (q : Nat) (f : Queue → Queue) : World :=
  { w with queues := w.queues.modify q (Option.map f) }

def engine? (w : World) (e : Nat) : Option Engine := w.engines[e]?

def setEngine (w : World) (e : Nat) (engine : Engine) : World :=
  { w with engines := w.engines.setIfInBounds e engine }

def modifyEngine (w : World) (e : Nat) (f : Engine → Engine) : World :=
  { w with engines := w.engines.modify e f }

def machine? (w : World) (e : Nat) : Option Machine := w.engine? e >>= Engine.machine?

def setMachine (w : World) (e : Nat) (m : Machine) : World := w.modifyEngine e (·.setMachine m)

def modifyMachine (w : World) (e : Nat) (f : Machine → Machine) : World :=
  match w.machine? e with
  | none => w
  | some m => w.setMachine e (f m)

def host? (w : World) (e : Nat) (name : String) : Option (List (HostCall Action)) :=
  w.engine? e >>= (·.host? name)

def logged (w : World) (event : Event) : World := { w with log := event :: w.log }

theorem queue?_setQueue {w : World} {q : Nat} (queue : Queue) (h : q < w.queues.size) :
    (w.setQueue q queue).queue? q = some queue := by
  simp [queue?, setQueue, h]

theorem queue?_setQueue_of_ne {w : World} {q q' : Nat} (queue : Queue) (h : q ≠ q') :
    (w.setQueue q queue).queue? q' = w.queue? q' := by
  simp [queue?, setQueue, Array.getElem?_setIfInBounds_ne h]

theorem queue?_modifyQueue (w : World) (q : Nat) (f : Queue → Queue) :
    (w.modifyQueue q f).queue? q = (w.queue? q).map f := by
  cases h : w.queues[q]? with
  | none => simp [queue?, modifyQueue, Array.getElem?_modify, h]
  | some queue => cases queue <;> simp [queue?, modifyQueue, Array.getElem?_modify, h]

theorem queue?_modifyQueue_of_ne (w : World) {q q' : Nat} (f : Queue → Queue) (h : q ≠ q') :
    (w.modifyQueue q f).queue? q' = w.queue? q' := by
  simp [queue?, modifyQueue, Array.getElem?_modify, h]

theorem engine?_modifyEngine (w : World) (e : Nat) (f : Engine → Engine) :
    (w.modifyEngine e f).engine? e = (w.engine? e).map f := by
  simp [engine?, modifyEngine, Array.getElem?_modify]

theorem engine?_modifyEngine_of_ne (w : World) {e e' : Nat} (f : Engine → Engine) (h : e ≠ e') :
    (w.modifyEngine e f).engine? e' = w.engine? e' := by
  simp [engine?, modifyEngine, Array.getElem?_modify, h]

@[simp] theorem queue?_modifyEngine (w : World) (e : Nat) (f : Engine → Engine) (q : Nat) :
    (w.modifyEngine e f).queue? q = w.queue? q := rfl

@[simp] theorem queue?_logged (w : World) (event : Event) (q : Nat) :
    (w.logged event).queue? q = w.queue? q := rfl

@[simp] theorem engine?_setQueue (w : World) (q : Nat) (queue : Queue) (e : Nat) :
    (w.setQueue q queue).engine? e = w.engine? e := rfl

@[simp] theorem engine?_modifyQueue (w : World) (q : Nat) (f : Queue → Queue) (e : Nat) :
    (w.modifyQueue q f).engine? e = w.engine? e := rfl

@[simp] theorem engine?_logged (w : World) (event : Event) (e : Nat) :
    (w.logged event).engine? e = w.engine? e := rfl

/-- The clock never goes back, and it stops at its largest reading. -/
def advance (w : World) (ms : UInt64) : World := { w with now := saturatingAdd w.now ms }

def setClock (w : World) (ms : UInt64) : World := { w with now := max w.now ms }

def named (w : World) (name : String) (queue : Nat) (id : TaskId) : World :=
  if name = "" then w else { w with names := ⟨name, queue, id⟩ :: w.names }

/-- The id that a name was last given to, in whichever queue. -/
def resolve (w : World) (name : String) : TaskId :=
  ((w.names.find? (·.name == name)).map (·.id)).getD TaskId.null

def label (w : World) (queue : Nat) (id : TaskId) : String :=
  ((w.names.find? fun n => n.queue = queue ∧ n.id = id).map (·.name)).getD id.text

def notify (w : World) (q : Nat) (tag : Tag) (text : String) : World :=
  (w.modifyQueue q (·.record ⟨tag, text⟩)).logged (.status q ⟨tag, text⟩)

def push (w : World) (q : Nat) (task : Task) : TaskId × World :=
  match w.queue? q with
  | none => (TaskId.null, w)
  | some queue =>
    let (id, queue) := queue.push task
    (id, w.setQueue q queue)

def installHook (w : World) (q e : Nat) : World :=
  match w.queue? q with
  | none => w
  | some queue => w.modifyEngine e (·.setHook (.cancel q) queue.config.interval)

def interruptTask (w : World) (q : Nat) (id : TaskId) : Bool × World :=
  match w.queue? q >>= (·.get? id) with
  | none => (false, w)
  | some task =>
    match task.interrupted? with
    | none => (false, w)
    | some after =>
      let w := w.modifyQueue q (·.modify id fun _ => after)
      match after with
      | .script t => (true, w.installHook q t.engine)
      | _ => (true, w)

def interruptTasks (w : World) (q : Nat) (ids : List TaskId) : Nat × World :=
  ids.foldl (fun (n, w) id =>
    let (delivered, w) := w.interruptTask q id
    (if delivered then n + 1 else n, w)) (0, w)

def interruptAll (w : World) (q : Nat) (watcher : WatcherTask) : TaskId × World :=
  let order := ((w.queue? q).map (·.order)).getD []
  let (delivered, w) := w.interruptTasks q order
  (w.modifyQueue q (·.countInterrupts delivered)).push q (.watcher watcher)

def loadScript (w : World) (q e : Nat) (source : List UInt8) : Except LoadError (Nat × World) :=
  let chunk := ((w.queue? q).map (·.config.chunkName)).getD ""
  match w.engine? e with
  | none => .error (.other (-1) "engine produced no callable")
  | some engine =>
    match engine.load chunk source with
    | .error error => .error error
    | .ok engine =>
      match engine.reference? with
      | none => .error (.other (-1) "engine produced no callable")
      | some (key, engine) => .ok (key, w.setEngine e engine)

/-- Compiles a source and queues one call of it. A refused source is reported and leaves nothing
behind. -/
def parseAndStart (w : World) (q e : Nat) (source : List UInt8) :
    Except LoadError TaskId × World :=
  match w.loadScript q e source with
  | .error error => (.error error, w.notify q .notice error.notice)
  | .ok (key, w) =>
    let w := w.notify q .notice "Running script..."
    let w := w.notify q .state "1"
    let (id, w) := w.push q (.script { engine := e, key, release := true })
    (.ok id, w)

def handle (w : World) (handler : Handler) (message : String) (frames : List TraceFrame) :
    String × World :=
  match handler with
  | .traceback => (traceback message frames, w)
  | .recording => ("handled", w.logged (.handled message frames))

end World

end TaskLoop
