import TaskLoop.Machine.Basic
import TaskLoop.Queue.TaskId
import TaskLoop.Queue.Config

namespace TaskLoop

inductive Verdict where
  | again
  | done
deriving DecidableEq, Repr

structure IdleStep (α : Type) where
  actions : List α
  verdict : Verdict

/-- One call of a host function: what it performs, the text it fails with if any, and whether it
also fails when one of its actions did. -/
structure HostCall (α : Type) where
  actions : List α
  failure : Option String
  strict : Bool

inductive Handler where
  | traceback
  | recording
deriving DecidableEq, Repr

/-- What can be asked of a queue. `onDrop` is performed when the callback of a task is destroyed. -/
inductive QueueAction (α : Type) where
  | idle (name : String) (steps : List (IdleStep α)) (onDrop : Option (List α))
  | timer (name : String) (delay : UInt64) (interval : Option UInt64) (fires : List (List α))
      (onDrop : Option (List α))
  | interruptAll (name : String) (actions : List α) (onDrop : Option (List α))
  | parseAndStart (name : String) (engine : Nat) (source : List UInt8)
  | startScript (name : String) (engine key : Nat) (release : Bool)
  | interrupt (name : String)
  | remove (name : String)
  | contains (name : String)
  | kind (name : String)
  | count
  | isEmpty
  | ids
  | current
  | stats
  | config
  | now
  | describe
  | runPass
  | runOnce
  | runForever
  | stop
  | notify (tag : Tag) (text : String)
  | messages
  | tagged (tag : Tag)
  | clearMessages

inductive EngineAction (α : Type) where
  | load (chunk : String) (source : List UInt8)
  | reference
  | unreference (key : Nat)
  | call (key : Nat) (handler : Handler)
  | setHook (every : Nat) (label : String) (fires : List (List α))
  | clearHook
  | top
  | setTop (height : Nat)
  | pushInt (n : Int64)
  | popInt
  | limits
  | host (name : String) (calls : List (HostCall α))
  /-- Performs actions once, right before an instruction counts toward the hook. -/
  | trigger (instruction : Nat) (actions : List α)
  /-- Takes an integer from the stack and prints it. -/
  | print
  /-- Pushes the time. -/
  | pushTime

/-- An action. `unwind` leaves every callback up to the outermost action. -/
inductive Action where
  | advance (ms : UInt64)
  | setClock (ms : UInt64)
  | unwind (message : String)
  | alive (queue : Nat)
  | queue (queue : Nat) (action : QueueAction Action)
  | engine (engine : Nat) (action : EngineAction Action)

/-- The next of a row of turns and those that follow; the last one is taken again and again. -/
def nextTurn {α : Type} : List α → Option (α × List α)
  | [] => none
  | [a] => some (a, [a])
  | a :: rest => some (a, rest)

end TaskLoop
