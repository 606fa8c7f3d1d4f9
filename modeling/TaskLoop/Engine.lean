import TaskLoop.Action
import TaskLoop.Machine.Execute
import TaskLoop.Pacer

namespace TaskLoop

/-- What happens when a hook fires: the running task of a queue is cancelled if it has been
interrupted, or the user's next actions are performed. -/
inductive Hook where
  | cancel (queue : Nat)
  | user (label : String) (fires : List (List Action))

def Hook.rest : Hook → Hook
  | cancel q => cancel q
  | user label fires => user label fires.tail

structure Probe where
  hook : Hook
  every : Nat
  left : Nat

/-- Counts an instruction, and says whether the hook is due. The count starts again before the hook
runs. -/
def Probe.tick (p : Probe) : Bool × Probe :=
  if p.left ≤ 1 then (true, { p with left := p.every }) else (false, { p with left := p.left - 1 })

structure MachineEngine where
  machine : Machine := {}
  probe : Option Probe := none
  hosts : List (String × List (HostCall Action)) := []

structure PacerEngine where
  pacer : Pacer := {}
  probe : Option Probe := none
  trigger : Option (Nat × List Action) := none

/-- An engine. The inert one accepts every source and can call nothing. -/
inductive Engine where
  | machine (e : MachineEngine)
  | pacer (e : PacerEngine)
  | inert

namespace Engine

def load (e : Engine) (chunk : String) (source : List UInt8) : Except LoadError Engine :=
  match e with
  | machine e => (e.machine.load chunk source).map fun m => machine { e with machine := m }
  | pacer e => (e.pacer.load source).map fun p => pacer { e with pacer := p }
  | inert => .ok inert

def reference? : Engine → Option (Nat × Engine)
  | machine e => e.machine.reference?.map fun (key, m) => (key, machine { e with machine := m })
  | pacer e => e.pacer.reference?.map fun (key, p) => (key, pacer { e with pacer := p })
  | inert => none

def unreference (e : Engine) (key : Nat) : Engine :=
  match e with
  | machine e => machine { e with machine := e.machine.unreference key }
  | pacer e => pacer { e with pacer := e.pacer.unreference key }
  | inert => inert

/-- Installs a hook. A machine takes an interval of zero for one; a pacer fires at every
instruction then. -/
def setHook (e : Engine) (hook : Hook) (every : Nat) : Engine :=
  match e with
  | machine e => machine { e with probe := some ⟨hook, max every 1, max every 1⟩ }
  | pacer e => pacer { e with probe := some ⟨hook, every, every⟩ }
  | inert => inert

def clearHook : Engine → Engine
  | machine e => machine { e with probe := none }
  | pacer e => pacer { e with probe := none }
  | inert => inert

def probe? : Engine → Option Probe
  | machine e => e.probe
  | pacer e => e.probe
  | inert => none

def setProbe (e : Engine) (probe : Option Probe) : Engine :=
  match e with
  | machine e => machine { e with probe }
  | pacer e => pacer { e with probe }
  | inert => inert

def top : Engine → Nat
  | machine e => e.machine.stack.height
  | pacer e => e.pacer.stack.length
  | inert => 0

def setTop (e : Engine) (height : Nat) : Engine :=
  match e with
  | machine e => machine { e with machine := e.machine.truncate height }
  | pacer e => pacer { e with pacer := e.pacer.truncate height }
  | inert => inert

def executed : Engine → Nat
  | machine e => e.machine.executed
  | pacer e => e.pacer.executed
  | inert => 0

def count : Engine → Engine
  | machine e => machine { e with machine := e.machine.count }
  | pacer e => pacer { e with pacer := e.pacer.count }
  | inert => inert

def machine? : Engine → Option Machine
  | machine e => some e.machine
  | _ => none

def setMachine (e : Engine) (m : Machine) : Engine :=
  match e with
  | machine e => machine { e with machine := m }
  | e => e

def host? (e : Engine) (name : String) : Option (List (HostCall Action)) :=
  match e with
  | machine e => (e.hosts.find? (·.1 == name)).map (·.2)
  | _ => none

def setHost (e : Engine) (name : String) (calls : List (HostCall Action)) : Engine :=
  match e with
  | machine e => machine { e with hosts := (name, calls) :: e.hosts.filter (·.1 != name) }
  | e => e

def trigger? : Engine → Option (List Action)
  | pacer e => (e.trigger.filter (·.1 = e.pacer.executed)).map (·.2)
  | _ => none

def setTrigger (e : Engine) (trigger : Option (Nat × List Action)) : Engine :=
  match e with
  | pacer e => pacer { e with trigger }
  | e => e

def pushChunk (e : Engine) (chunk : PacerChunk) : Engine :=
  match e with
  | pacer e => pacer { e with pacer := { e.pacer with stack := chunk :: e.pacer.stack } }
  | e => e

def popChunk : Engine → Engine
  | pacer e => pacer { e with pacer := { e.pacer with stack := e.pacer.stack.tail } }
  | e => e

end Engine

end TaskLoop
