import TaskLoop.Session.Pass

namespace TaskLoop.World

def start (w : World) (q : Nat) (name : String) (task : Task) (k : Pending .reply) : Process :=
  let (id, w) := w.push q task
  (w.named name q id).deliver k (.task id)

/-- Removes a task. The record of the running task lives until its step has ended; any other is
destroyed at once. -/
def removeTask (w : World) (q : Nat) (queue : Queue) (id : TaskId) (k : Pending .reply) : Process :=
  match queue.unlink? id with
  | none => w.deliver k (.unknownTask id)
  | some (task, left) =>
    if queue.current = some id then
      (w.setQueue q { left with held := some task }).deliver k .ok
    else (w.setQueue q left).destroy task (.cons (.doneReply .ok) k)

def interruptOne (w : World) (q : Nat) (queue : Queue) (id : TaskId) (k : Pending .reply) :
    Process :=
  if queue.contains id then
    let (delivered, w) := w.interruptTask q id
    (if delivered then w.modifyQueue q (·.countInterrupts 1) else w).deliver k .ok
  else w.deliver k (.unknownTask id)

def performOnQueue (w : World) (q : Nat) (queue : Queue) (action : QueueAction Action)
    (k : Pending .reply) : Process :=
  match action with
  | .idle name steps onDrop =>
    w.start q name (.idle { name, body := .steps steps, onDrop }) k
  | .timer name delay interval fires onDrop =>
    w.start q name (.timer { name, deadline := saturatingAdd w.now delay, interval, fires,
                             onDrop }) k
  | .interruptAll name actions onDrop =>
    let (id, w) := w.interruptAll q ⟨name, some ⟨actions, onDrop⟩⟩
    (w.named name q id).deliver k (.task id)
  | .parseAndStart name e source =>
    match w.parseAndStart q e source with
    | (.error error, w) => w.deliver k (.loadError error)
    | (.ok id, w) => (w.named name q id).deliver k (.task id)
  | .startScript name e key release => w.start q name (.script { engine := e, key, release }) k
  | .interrupt name => w.interruptOne q queue (w.resolve name) k
  | .remove name => w.removeTask q queue (w.resolve name) k
  | .contains name => w.deliver k (.bool (queue.contains (w.resolve name)))
  | .kind name =>
    w.deliver k (match queue.get? (w.resolve name) with
      | none => .null
      | some task => .kind task.kind)
  | .count => w.deliver k (.nat queue.count)
  | .isEmpty => w.deliver k (.bool queue.order.isEmpty)
  | .ids => w.deliver k (.tasks queue.order)
  | .current =>
    w.deliver k (match queue.current with
      | none => .null
      | some id => .text (w.label q id))
  | .stats => w.deliver k (.stats queue.stats)
  | .config => w.deliver k (.config queue.config)
  | .now => w.deliver k (.nat w.now.toNat)
  | .describe => w.deliver k (.text queue.describe)
  | .runPass => w.startPass q (.cons .passReply k)
  | .runOnce => w.startRun q (.cons .runReply k)
  | .runForever => w.startRun q (.cons (.forever q) k)
  | .stop => (w.setQueue q { queue with stopping := true }).deliver k .null
  | .notify tag text => (w.notify q tag text).deliver k .null
  | .messages => w.deliver k (.messages queue.messages)
  | .tagged tag => w.deliver k (.texts ((queue.messages.filter (·.tag = tag)).map (·.text)))
  | .clearMessages => (w.setQueue q { queue with messages := [] }).deliver k .null

def pushInt (w : World) (e : Nat) (n : Int64) (k : Pending .reply) : Process :=
  match w.machine? e >>= (·.push? (.int n)) with
  | none => w.deliver k (.failed "stack overflow")
  | some m => (w.setMachine e m).deliver k .ok

/-- Performs an action on an engine that is there. What only a machine or only a pacer can do has
no effect on other engines. -/
def performOnEngine (w : World) (e : Nat) (engine : Engine) (action : EngineAction Action)
    (k : Pending .reply) : Process :=
  match action with
  | .load chunk source =>
    match engine.load chunk source with
    | .error error => w.deliver k (.loadError error)
    | .ok engine => (w.setEngine e engine).deliver k .ok
  | .reference =>
    match engine.reference? with
    | none => w.deliver k .null
    | some (key, engine) => (w.setEngine e engine).deliver k (.nat key)
  | .unreference key => (w.setEngine e (engine.unreference key)).deliver k .null
  | .call key handler => w.callProtected e key handler (.cons .callReply k)
  | .setHook every label fires =>
    (w.setEngine e (engine.setHook (.user label fires) every)).deliver k .null
  | .clearHook => (w.setEngine e engine.clearHook).deliver k .null
  | .top => w.deliver k (.nat engine.top)
  | .setTop height => (w.setEngine e (engine.setTop height)).deliver k .null
  | .pushInt n => w.pushInt e n k
  | .popInt =>
    match engine.machine? >>= (·.popInt?) with
    | none => w.deliver k .null
    | some (n, m) => (w.setMachine e m).deliver k (.int n)
  | .limits =>
    w.deliver k (match engine.machine? with
      | none => .null
      | some m => .limits m.limits)
  | .host name calls => (w.setEngine e (engine.setHost name calls)).deliver k .null
  | .trigger instruction actions =>
    (w.setEngine e (engine.setTrigger (some (instruction, actions)))).deliver k .null
  | .print =>
    match engine.machine? >>= (·.popInt?) with
    | none => w.deliver k (.failed "expected an integer")
    | some (n, m) => ((w.setMachine e m).logged (.printed n)).deliver k .ok
  | .pushTime =>
    if w.now.toNat < 1 <<< 63 then w.pushInt e (Int64.ofNat w.now.toNat) k
    else w.deliver k (.failed "out of range integral type conversion attempted")

def perform (w : World) (action : Action) (k : Pending .reply) : Process :=
  match action with
  | .advance ms => (w.advance ms).deliver k .null
  | .setClock ms => (w.setClock ms).deliver k .null
  | .unwind message => w.unwind (.foreign message) k
  | .alive q => w.deliver k (.bool (w.queue? q).isSome)
  | .queue q action =>
    match w.queue? q with
    | none => w.deliver k .noQueue
    | some queue => w.performOnQueue q queue action k
  | .engine e action =>
    match w.engine? e with
    | none => w.deliver k .null
    | some engine => w.performOnEngine e engine action k

end TaskLoop.World
