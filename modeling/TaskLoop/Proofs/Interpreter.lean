import TaskLoop.Session.Process
import TaskLoop.Proofs.Listing
import TaskLoop.Proofs.Instruction

namespace TaskLoop.Source

/-- A call in progress: the header of its function, zero in the main chunk, and the line that it has
come to. -/
structure Position where
  home : Nat
  line : Nat
deriving DecidableEq, Repr

def nextLine? (source : List Char) (pos : Position) : Option Line :=
  ((sites source).find? fun s =>
    s.home == pos.home && s.line.instructs && decide (pos.line < s.line.number)).map (·.line)

def labelSite? (source : List Char) (home : Nat) (label : String) : Option Line :=
  ((sites source).find? fun s =>
    s.home == home && s.line.plain && s.line.text == label.toList ++ [':']).map (·.line)

def headerLine? (source : List Char) (name : String) : Option Line :=
  (lines source).find? (·.words == ["fn", name])

def nameAt (source : List Char) (home : Nat) : String :=
  (((lines source).find? fun l => l.opens && l.number == home).map (·.functionName)).getD ""

/-- The line of the next instruction, and the positions while it is performed. A body that has no more
of them returns. -/
def nextSite? (source : List Char) : List Position → Option (Line × List Position)
  | [] => none
  | pos :: rest =>
    match nextLine? source pos with
    | some l => some (l, ⟨pos.home, l.number⟩ :: rest)
    | none => nextSite? source rest

def startPositions : List Position := [⟨0, 0⟩]

inductive Move where
  | next (m : Machine) (ps : List Position)
  | stop (m : Machine) (fault : TaskLoop.Fault)
  | host (name : String)
  /-- The line names something that is not there. -/
  | stuck

def withValues (m : Machine) (vs : List Value) : Machine :=
  { m with stack := { items := vs, height := vs.length } }

def underflow (m : Machine) : Move := .stop m (.runtime .stackUnderflow)

def place (m : Machine) (v : Value) (ps : List Position) : Move :=
  if m.stack.items.length < m.limits.stack.toNat then .next (withValues m (v :: m.stack.items)) ps
  else .stop m .memory

/-- The integer of 64 bits that agrees with another integer modulo `2 ^ 64`. -/
def wrap (z : Int) : Int64 := Int64.ofInt (z.bmod (2 ^ 64))

def compute (m : Machine) (f : Int → Int → Int) (ps : List Position) : Move :=
  match m.stack.items with
  | [] => underflow m
  | [_] => underflow (withValues m [])
  | .int b :: .int a :: rest => place (withValues m rest) (.int (wrap (f a.toInt b.toInt))) ps
  | _ :: _ :: rest => .stop (withValues m rest) (.runtime .arithmeticOnCallable)

def goTo (source : List Char) (m : Machine) (label : String) : List Position → Move
  | [] => .stuck
  | pos :: rest =>
    match labelSite? source pos.home label with
    | none => .stuck
    | some l => .next m (⟨pos.home, l.number⟩ :: rest)

def enter (source : List Char) (m : Machine) (name : String) (ps : List Position) : Move :=
  if m.limits.callDepth.toNat ≤ ps.length then .stop m (.runtime .callDepth)
  else match headerLine? source name with
    | none => .stuck
    | some l => .next m (⟨l.number, l.number⟩ :: ps)

def perform (source : List Char) (m : Machine) (ps : List Position) : Instruction → Move
  | .push n => place m (.int n) ps
  | .pop =>
    match m.stack.items with
    | [] => underflow m
    | _ :: rest => .next (withValues m rest) ps
  | .dup =>
    match m.stack.items with
    | [] => underflow m
    | v :: _ => place m v ps
  | .add => compute m (· + ·) ps
  | .sub => compute m (· - ·) ps
  | .jump label => goTo source m label ps
  | .jumpz label =>
    match m.stack.items with
    | [] => underflow m
    | v :: rest =>
      if v = .int 0 then goTo source (withValues m rest) label ps
      else .next (withValues m rest) ps
  | .call name => enter source m name ps
  | .ret => .next m ps.tail
  | .raise message => .stop m (.runtime (.raised message))
  | .host name => .host name
  | .alloc bytes =>
    let total := saturatingAdd m.allocated bytes
    if m.limits.memory < total then .stop m .memory else .next { m with allocated := total } ps

/-- A protected call that is interpreted: the source with its chunk name, the machine, what was
allocated and how high the stack was when the call began, and who makes the text of an error. -/
structure Reading where
  chunk : String
  source : List Char
  engine : Nat
  mark : UInt64
  base : Nat
  handler : Handler

inductive Interpretation where
  /-- Before the next instruction. -/
  | ready (w : World) (ps : List Position)
  /-- In the hook, which has been called before the instruction. -/
  | hook (p : Process) (ps : List Position) (i : Instruction)
  /-- In a host function. -/
  | host (p : Process) (ps : List Position) (name : String) (turn : HostCall Action)
  /-- The call has ended with a result. -/
  | ended (w : World) (result : Except CallError Unit)
  /-- A payload has left the call. -/
  | left (w : World) (payload : Payload)
  /-- Everything is over. -/
  | aborted (w : World)
  /-- A line is no instruction, or names something that is not there. -/
  | stuck (w : World)

namespace Interpretation

def isRunning : Interpretation → Bool
  | ready .. | hook .. | host .. => true
  | _ => false

def world : Interpretation → World
  | ready w _ | ended w _ | left w _ | aborted w | stuck w => w
  | hook p _ _ | host p _ _ _ => p.world

def unlessAborted (p : Process) (i : Interpretation) : Interpretation :=
  match p.control with
  | .aborted => .aborted p.world
  | _ => i

end Interpretation

def hookBase : Pending .done := .cons (.doneReply .null) .outermost

def hostBase : Pending .routine := .cons .unheeded hookBase

namespace Reading

def of (chunk : String) (source : List Char) (e : Nat) (m : Machine) (handler : Handler) : Reading :=
  ⟨chunk, source, e, m.allocated, m.stack.height, handler⟩

variable (r : Reading)

def trace (ps : List Position) : List TraceFrame :=
  ps.reverse.map fun pos => ⟨r.chunk, nameAt r.source pos.home, pos.line⟩

def finish (w : World) (result : Except CallError Unit) : Interpretation :=
  .ended (w.modifyMachine r.engine (·.leave r.base r.mark)) result

def fail (w : World) (ps : List Position) : TaskLoop.Fault → Interpretation
  | .memory => r.finish w (.error .memory)
  | .runtime fault =>
    let (text, w) := w.handle r.handler fault.message (r.trace ps)
    r.finish w (.error (.runtime text))

def callHost (w : World) (ps : List Position) (name : String) : Interpretation :=
  match w.host? r.engine name with
  | none => r.fail w ps (.runtime (.unknownHost name))
  | some turns =>
    let w := w.logged (.host name)
    match nextTurn turns with
    | none => .ready w ps
    | some (turn, rest) =>
      .host ((w.modifyEngine r.engine (·.setHost name rest)).callBack turn.actions hostBase) ps name turn

def execute (w : World) (ps : List Position) (i : Instruction) : Interpretation :=
  match w.machine? r.engine with
  | none => .ended w (.ok ())
  | some m =>
    match perform r.source m ps i with
    | .next m ps => .ready (w.setMachine r.engine m) ps
    | .stop m fault => r.fail (w.setMachine r.engine m) ps fault
    | .host name => r.callHost w ps name
    | .stuck => .stuck w

def proceed (w : World) (ps : List Position) : Interpretation :=
  match nextSite? r.source ps with
  | none => r.finish w (.ok ())
  | some (l, ps) =>
    match Instruction.read? l.text with
    | none => .stuck w
    | some i =>
      match (w.countInstruction r.engine).tickHook r.engine with
      | (none, w) => r.execute w ps i
      | (some hook, w) => .hook (w.fireHook hook (w.executed r.engine) ps.length hookBase) ps i

def hostReturned (w : World) (ps : List Position) (name : String) (turn : HostCall Action)
    (complaint : Option String) : Interpretation :=
  match turn.failure <|> (if turn.strict then complaint else none) with
  | none => .ready w ps
  | some reason => r.fail w ps (.runtime (.hostFailed name reason))

def leave (w : World) (payload : Payload) : Interpretation :=
  .left (w.modifyMachine r.engine fun m => { m with allocated := r.mark }) payload

def stepHook (p : Process) (ps : List Position) (i : Instruction) : Interpretation :=
  match p.control with
  | .deliver _ (.cons (.doneReply _) .outermost) => r.execute p.world ps i
  | .unwind payload (.cons (.doneReply _) .outermost) => r.leave p.world payload
  | _ => .unlessAborted p.step (.hook p.step ps i)

def stepHost (p : Process) (ps : List Position) (name : String) (turn : HostCall Action) :
    Interpretation :=
  match p.control with
  | .deliver complaint (.cons .unheeded (.cons (.doneReply _) .outermost)) =>
    r.hostReturned p.world ps name turn complaint
  | .unwind payload (.cons .unheeded (.cons (.doneReply _) .outermost)) => r.leave p.world payload
  | _ => .unlessAborted p.step (.host p.step ps name turn)

def step : Interpretation → Interpretation
  | .ready w ps => r.proceed w ps
  | .hook p ps i => r.stepHook p ps i
  | .host p ps name turn => r.stepHost p ps name turn
  | i => i

def run (r : Reading) (w : World) : Nat → Interpretation
  | 0 => .ready w startPositions
  | n + 1 => r.step (run r w n)

end Reading

end TaskLoop.Source
