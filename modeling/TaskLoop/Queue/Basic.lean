import TaskLoop.Queue.Arena
import TaskLoop.Queue.Task

namespace TaskLoop

/-- A queue. `current` is the task whose step is running; `held` is its record if the task was
removed during that step, because the record lives until the step has ended. -/
structure Queue where
  config : QueueConfig := {}
  tasks : Arena Task := {}
  order : List TaskId := []
  current : Option TaskId := none
  held : Option Task := none
  stopping : Bool := false
  stats : Stats := {}
  messages : List Message := []

namespace Queue

def get? (q : Queue) (id : TaskId) : Option Task := q.tasks.get? id

def contains (q : Queue) (id : TaskId) : Bool := q.tasks.contains id

def count (q : Queue) : Nat := q.order.length

def push (q : Queue) (task : Task) : TaskId × Queue :=
  let (id, tasks) := q.tasks.insert task
  (id, { q with tasks, order := q.order ++ [id] })

def unlink? (q : Queue) (id : TaskId) : Option (Task × Queue) :=
  (q.tasks.remove? id).map fun (task, tasks) =>
    (task, { q with tasks, order := q.order.filter (· != id) })

def modify (q : Queue) (id : TaskId) (f : Task → Task) : Queue :=
  { q with tasks := q.tasks.modify id f }

def record? (q : Queue) (id : TaskId) : Option Task := q.get? id <|> q.held

def nextAfter? (q : Queue) (id : TaskId) : Option TaskId :=
  ((q.order.dropWhile (· != id)).drop 1).head?

def firstUnvisited? (q : Queue) (visited : List TaskId) : Option TaskId :=
  q.order.find? (!visited.contains ·)

def onlyWatchers (q : Queue) : Bool := q.tasks.records.all (·.kind = .watcher)

def cancelled? (q : Queue) : Option TaskId :=
  q.current.filter fun id => ((q.get? id).map Task.armed).getD false

def enter (q : Queue) (id : TaskId) : Queue := { q with current := some id }

def leave (q : Queue) : Queue := { q with current := none, held := none }

def countPass (q : Queue) (steps completed : Nat) : Queue :=
  { q with stats := { q.stats with
      passes := q.stats.passes + 1
      steps := q.stats.steps + steps
      completed := q.stats.completed + completed } }

def countInterrupts (q : Queue) (n : Nat) : Queue :=
  { q with stats := { q.stats with interrupts := q.stats.interrupts + n } }

def record (q : Queue) (message : Message) : Queue :=
  { q with messages := q.messages ++ [message] }

def describe (q : Queue) : String :=
  let tasks := ", ".intercalate (q.order.map TaskId.text)
  let current := match q.current with
    | none => "None"
    | some id => s!"Some({id.text})"
  s!"TaskQueue \x7b tasks: [{tasks}], current: {current}, stats: {q.stats.describe} \x7d"

end Queue

end TaskLoop
