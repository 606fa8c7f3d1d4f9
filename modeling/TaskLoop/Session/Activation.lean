import TaskLoop.Session.World

namespace TaskLoop

/-- What leaves activations without a result: the cancellation of a task by a hook, or a payload
that means nothing to the scheduler. -/
inductive Payload where
  | cancelled (id : TaskId)
  | foreign (message : String)
deriving DecidableEq, Repr

inductive Hole where
  /-- An action has answered. -/
  | reply
  /-- A callback has performed its actions. -/
  | routine
  /-- A task has been stepped. -/
  | verdict
  /-- A pass has ended. -/
  | pass
  /-- A run of passes has ended. -/
  | run
  /-- A protected call has ended. -/
  | call
  /-- Something has been done that has no result. -/
  | done
deriving DecidableEq, Repr

/-- The results that fill a hole. A routine gives the first complaint among its replies, a pass the
number of its steps. -/
abbrev Hole.Result : Hole → Type
  | reply => Reply
  | routine => Option String
  | verdict => Verdict
  | pass => Nat
  | run => RunOutcome
  | call => Except CallError Unit
  | done => Unit

/-- How far a pass has come: the tasks it has visited, the last one in front, how many steps have
ended, and how many tasks were completed. -/
structure Walk where
  visited : List TaskId := []
  stepped : Nat := 0
  completed : Nat := 0

/-- A protected call of a machine: the program, its frames, what was allocated and how high the
stack was when the call began, and who makes the text of an error. -/
structure MachineCall where
  program : Program
  frames : List CallFrame
  mark : UInt64
  base : Nat
  handler : Handler

structure PacerCall where
  rest : Pacer.Rest
  depth : Nat
  handler : Handler

/-- An activation that has begun and not yet ended: it awaits a result of the first sort and gives one of the
second to the activation below it. -/
inductive Activation : Hole → Hole → Type where
  /-- A callback that is performing an action, with those that follow and the first complaint. -/
  | routine (action : Action) (rest : List Action) (complaint : Option String) :
      Activation .reply .routine
  /-- A callback whose complaints do not matter. -/
  | unheeded : Activation .routine .done
  /-- The step function of an idle task. -/
  | idle (verdict : Verdict) : Activation .routine .verdict
  /-- The callback of a timer. -/
  | firing (queue : Nat) (id : TaskId) : Activation .routine .verdict
  /-- The callback of a watcher, which is destroyed when it has run. -/
  | quiet (name : String) (onDrop : Option (List Action)) : Activation .routine .verdict
  /-- The destruction of a watcher's callback inside its step. -/
  | rested : Activation .done .verdict
  /-- The step of a script, which makes one protected call. -/
  | script (queue : Nat) (id : TaskId) (task : ScriptTask) (base : Nat) : Activation .call .verdict
  /-- The turn of a task in a pass. -/
  | turn (queue : Nat) (id : TaskId) (walk : Walk) : Activation .verdict .pass
  /-- A pass between two turns. -/
  | walk (queue : Nat) (next : Option TaskId) (walk : Walk) : Activation .done .pass
  /-- Passes that go on until the queue is empty. -/
  | drain (queue : Nat) : Activation .pass .run
  /-- Runs that go on until a stop is asked for. -/
  | forever (queue : Nat) : Activation .run .reply
  | passReply : Activation .pass .reply
  | runReply : Activation .run .reply
  | callReply : Activation .call .reply
  | doneReply (reply : Reply) : Activation .done .reply
  /-- A machine before its next instruction. -/
  | machine (engine : Nat) (call : MachineCall) : Activation .done .call
  /-- A machine whose next instruction has been counted. -/
  | counted (engine : Nat) (call : MachineCall) (op : Op) : Activation .done .call
  /-- A machine that has called a host function. -/
  | host (engine : Nat) (call : MachineCall) (name : String) (turn : HostCall Action) :
      Activation .routine .call
  /-- A pacer before its next instruction. -/
  | pacer (engine : Nat) (call : PacerCall) : Activation .done .call
  /-- A pacer whose trigger has gone off at an instruction. -/
  | triggered (engine instruction depth : Nat) (call : PacerCall) : Activation .done .call
  /-- The destruction of the records of a queue. -/
  | sweep (rest : List Task) : Activation .done .done
  /-- The destruction of a callback while a payload is on its way out. -/
  | cleanup (payload : Payload) (hole : Hole) : Activation .done hole

/-- The activations that wait for a result, innermost first. The outermost action waits for
nothing but its reply. -/
inductive Pending : Hole → Type where
  | outermost : Pending .reply
  | cons {a b : Hole} (top : Activation a b) (rest : Pending b) : Pending a

/-- What happens next: an action is performed, a result is given to the innermost activation, or a
payload leaves it. At the end the outermost action has answered, or a payload has left it. A
payload that leaves a destruction while another one is on its way out ends everything. -/
inductive Control where
  | perform (action : Action) (k : Pending .reply)
  | deliver {hole : Hole} (result : hole.Result) (k : Pending hole)
  | unwind {hole : Hole} (payload : Payload) (k : Pending hole)
  | answered (reply : Reply)
  | escaped (payload : Payload)
  | aborted

structure Process where
  world : World
  control : Control

end TaskLoop
