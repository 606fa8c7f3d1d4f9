import TaskLoop.Action

namespace TaskLoop

inductive IdleBody where
  | steps (rest : List (IdleStep Action))
  | watchdog (deadline : UInt64)

structure IdleTask where
  name : String
  body : IdleBody
  alive : Bool := true
  onDrop : Option (List Action)

structure TimerTask where
  name : String
  deadline : UInt64
  interval : Option UInt64
  fires : List (List Action)
  alive : Bool := true
  onDrop : Option (List Action)

/-- One protected call of the callable that an engine keeps under a key. `armed` says that the
script has been interrupted, `release` that the key is to be freed afterwards. -/
structure ScriptTask where
  engine : Nat
  key : Nat
  release : Bool
  armed : Bool := false
  ran : Bool := false

structure QuietCallback where
  actions : List Action
  onDrop : Option (List Action)

/-- A task that waits until only watchers are queued. Its callback runs once. -/
structure WatcherTask where
  name : String
  callback : Option QuietCallback

inductive TaskKind where
  | idle
  | timer
  | script
  | watcher
deriving DecidableEq, Repr

inductive Task where
  | idle (task : IdleTask)
  | timer (task : TimerTask)
  | script (task : ScriptTask)
  | watcher (task : WatcherTask)

namespace Task

def kind : Task → TaskKind
  | idle _ => .idle
  | timer _ => .timer
  | script _ => .script
  | watcher _ => .watcher

def armed : Task → Bool
  | script t => t.armed
  | _ => false

def alive : Task → Bool
  | idle t => t.alive
  | timer t => t.alive
  | _ => true

/-- The task after an interrupt, or `none` for a watcher, which takes none. -/
def interrupted? : Task → Option Task
  | idle t => some (idle { t with alive := false })
  | timer t => some (timer { t with alive := false })
  | script t => some (script { t with armed := true })
  | watcher _ => none

end Task

end TaskLoop
