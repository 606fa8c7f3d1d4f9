import TaskLoop.Session.Turn

namespace TaskLoop.World

def finishPass (w : World) (q : Nat) (walk : Walk) (k : Pending .pass) : Process :=
  (w.modifyQueue q (·.countPass walk.stepped walk.completed)).deliver k walk.stepped

/-- Begins the turn of the next task. The pass ends when there is none, or when it has left the
queue since it was chosen. -/
def walkOn (w : World) (q : Nat) (next : Option TaskId) (walk : Walk) (k : Pending .pass) :
    Process :=
  match next with
  | none => w.finishPass q walk k
  | some id =>
    match w.queue? q >>= (·.get? id) with
    | none => w.finishPass q walk k
    | some task =>
      (w.modifyQueue q (·.enter id)).stepTask q id task
        (.cons (.turn q id { walk with visited := id :: walk.visited }) k)

def startPass (w : World) (q : Nat) (k : Pending .pass) : Process :=
  match w.queue? q with
  | none => w.deliver k 0
  | some queue =>
    if queue.current.isSome then w.deliver k 0 else w.walkOn q queue.order.head? {} k

/-- The task that a pass steps after this one. If the task has left the queue, its neighbours may
have left it too, so the pass goes on with the first task that it has not visited. -/
def chooseNext (queue : Queue) (id : TaskId) (visited : List TaskId) : Option TaskId :=
  if queue.contains id then queue.nextAfter? id else queue.firstUnvisited? visited

/-- Ends the turn of a task: the next one is chosen, a task that is done is unlinked, and the
record of a task that is no longer queued is destroyed. -/
def endTurn (w : World) (q : Nat) (id : TaskId) (walk : Walk) (verdict : Verdict)
    (k : Pending .pass) : Process :=
  match w.queue? q with
  | none => w.deliver k walk.stepped
  | some queue =>
    let walk := { walk with stepped := walk.stepped + 1 }
    let next := chooseNext queue id walk.visited
    let left := queue.leave
    match verdict, left.unlink? id with
    | .done, some (task, left) =>
      (w.setQueue q left).destroy task
        (.cons (.walk q next { walk with completed := walk.completed + 1 }) k)
    | _, _ =>
      match queue.held with
      | none => (w.setQueue q left).deliver (.cons (.walk q next walk) k) ()
      | some task => (w.setQueue q left).destroy task (.cons (.walk q next walk) k)

def abandonTurn (w : World) (q : Nat) (payload : Payload) (k : Pending .pass) : Process :=
  match w.queue? q with
  | none => w.unwind payload k
  | some queue =>
    let w := w.setQueue q queue.leave
    match queue.held with
    | none => w.unwind payload k
    | some task => w.destroy task (.cons (.cleanup payload .pass) k)

/-- Makes the next pass of a run, unless a stop was asked for. A stop is used up by the run that it
ends. -/
def drainOn (w : World) (q : Nat) (k : Pending .run) : Process :=
  match w.queue? q with
  | none => w.deliver k .drained
  | some queue =>
    if queue.stopping then (w.setQueue q { queue with stopping := false }).deliver k .stopped
    else if queue.order.isEmpty then w.deliver k .drained
    else w.startPass q (.cons (.drain q) k)

def startRun (w : World) (q : Nat) (k : Pending .run) : Process :=
  if ((w.queue? q) >>= (·.current)).isSome then w.deliver k .stopped else w.drainOn q k

end TaskLoop.World
