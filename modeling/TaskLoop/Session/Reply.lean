import TaskLoop.Queue.Task
import TaskLoop.Traceback

namespace TaskLoop

inductive Reply where
  | null
  | ok
  | bool (b : Bool)
  | nat (n : Nat)
  | int (n : Int64)
  | text (s : String)
  | texts (ss : List String)
  | task (id : TaskId)
  | tasks (ids : List TaskId)
  | kind (k : TaskKind)
  | stats (s : Stats)
  | config (c : QueueConfig)
  | limits (l : Limits)
  | outcome (o : RunOutcome)
  | messages (ms : List Message)
  | loadError (e : LoadError)
  | callError (e : CallError)
  | unknownTask (id : TaskId)
  | noQueue
  | failed (message : String)

/-- What a strict host function fails with because of this answer: the text of an error, and the
word `null` where there is no text. -/
def Reply.complaint? : Reply → Option String
  | null => some "null"
  | loadError e => some e.message
  | callError e => some e.text
  | unknownTask id => some s!"task {id.text} is not in the queue"
  | noQueue => some "null"
  | failed message => some message
  | _ => none

inductive Event where
  /-- An idle task was stepped. -/
  | step (name : String)
  /-- A timer fired. -/
  | fire (name : String) (now : UInt64)
  /-- A watcher found its queue at rest, with so many tasks in it. -/
  | quiet (name : String) (count : Nat)
  /-- The callback of a task was destroyed. -/
  | drop (name : String)
  /-- A callback performed an action. -/
  | did (action : Action) (reply : Reply)
  | status (queue : Nat) (message : Message)
  /-- A recording handler saw a runtime error. -/
  | handled (message : String) (frames : List TraceFrame)
  | hook (label : String) (executed depth : Nat)
  | host (name : String)
  | printed (n : Int64)

end TaskLoop
