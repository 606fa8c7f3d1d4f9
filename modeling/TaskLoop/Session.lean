import TaskLoop.Session.Process

namespace TaskLoop

inductive Command where
  | act (action : Action)
  | dropQueue (queue : Nat)

inductive EngineKind where
  | machine (limits : Limits)
  | pacer
  | inert

def EngineKind.make : EngineKind → Engine
  | machine limits => .machine { machine := { limits } }
  | pacer => .pacer {}
  | inert => .inert

def World.make (start : UInt64) (queues : List QueueConfig) (engines : List EngineKind) : World :=
  { now := start
    queues := (queues.map fun config => some ({ config } : Queue)).toArray
    engines := (engines.map EngineKind.make).toArray }

/-- Drops a queue. Its records are destroyed in the order of their slots, when the queue can no
longer be reached. -/
def World.dropQueue (w : World) (q : Nat) : Process :=
  match w.queue? q with
  | none => w.deliver .outermost .noQueue
  | some queue =>
    ({ w with queues := w.queues.setIfInBounds q none } : World).deliver
      (.cons (.sweep queue.tasks.records) (.cons (.doneReply .null) .outermost)) ()

def World.begin (w : World) (command : Command) : Process :=
  let w := { w with log := [] }
  match command with
  | .act action => ⟨w, .perform action .outermost⟩
  | .dropQueue q => w.dropQueue q

inductive Answer where
  | reply (r : Reply)
  | escaped (payload : Payload)
  | aborted
  | outOfFuel

def Process.answer (p : Process) : Answer :=
  match p.control with
  | .answered r => .reply r
  | .escaped payload => .escaped payload
  | .aborted => .aborted
  | _ => .outOfFuel

def World.carryOut (fuel : Nat) (w : World) (command : Command) : Answer × World :=
  let p := (w.begin command).run fuel
  (p.answer, p.world)

def World.session (fuel : Nat) (w : World) : List Command → List (Answer × World)
  | [] => []
  | command :: rest =>
    let (answer, w) := w.carryOut fuel command
    (answer, w) :: w.session fuel rest

end TaskLoop
