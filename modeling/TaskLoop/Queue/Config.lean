
namespace TaskLoop

inductive RepeatPolicy where
  | fromDeadline
  | fromNow
deriving DecidableEq, Repr

/-- The settings of a queue. `hookInterval` is the number of instructions between two looks at a
cancelled script, zero meaning one. -/
structure QueueConfig where
  hookInterval : UInt32 := 1
  repeatPolicy : RepeatPolicy := .fromDeadline
  chunkName : String := "usercode"
deriving DecidableEq, Repr

def QueueConfig.interval (c : QueueConfig) : Nat := max 1 c.hookInterval.toNat

structure Stats where
  passes : Nat := 0
  steps : Nat := 0
  completed : Nat := 0
  interrupts : Nat := 0
deriving DecidableEq, Repr

def Stats.describe (s : Stats) : String :=
  s!"SchedulerStats \x7b passes: {s.passes}, steps: {s.steps}, completed: {s.completed}, " ++
    s!"interrupts: {s.interrupts} \x7d"

inductive RunOutcome where
  | drained
  | stopped
deriving DecidableEq, Repr

inductive Tag where
  | notice
  | state
deriving DecidableEq, Repr

def Tag.letter : Tag → String
  | notice => "u"
  | state => "S"

structure Message where
  tag : Tag
  text : String
deriving DecidableEq, Repr

end TaskLoop
