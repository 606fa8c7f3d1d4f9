import TaskLoop.Traceback
import TaskLoop.Machine.Basic

namespace TaskLoop

/-- A call in progress: its function and the position after the instruction it is executing. -/
structure CallFrame where
  function : Nat
  pc : Nat
deriving DecidableEq, Repr

inductive RuntimeFault where
  | notCallable
  | stackUnderflow
  | arithmeticOnCallable
  | callDepth
  | raised (message : String)
  | unknownHost (name : String)
  | hostFailed (name reason : String)
deriving DecidableEq, Repr

def RuntimeFault.message : RuntimeFault → String
  | notCallable => "attempt to call a non-function value"
  | stackUnderflow => "stack underflow"
  | arithmeticOnCallable => "attempt to perform arithmetic on a function value"
  | callDepth => "stack overflow"
  | raised message => message
  | unknownHost name => s!"unknown host function '{name}'"
  | hostFailed name reason => s!"{name}: {reason}"

inductive Fault where
  | memory
  | runtime (fault : RuntimeFault)
deriving DecidableEq, Repr

namespace Program

def start : List CallFrame := [⟨0, 0⟩]

/-- The next instruction and the frames while it executes. A frame at the end of its function has
returned. -/
def fetch (p : Program) : List CallFrame → Option (Op × List CallFrame)
  | [] => none
  | f :: fs =>
    match p.op? f.function f.pc with
    | some op => some (op, ⟨f.function, f.pc + 1⟩ :: fs)
    | none => fetch p fs

def trace (p : Program) (frames : List CallFrame) : List TraceFrame :=
  frames.reverse.map fun f =>
    { chunk := p.chunk
      function := (p.functions[f.function]?.map (·.name)).getD ""
      line := p.line f.function (f.pc - 1) }

end Program

def jumpTo (target : Nat) : List CallFrame → List CallFrame
  | [] => []
  | f :: fs => { f with pc := target } :: fs

inductive Effect where
  | next (m : Machine) (frames : List CallFrame)
  | stop (m : Machine) (fault : Fault)
  | host (name : String)

namespace Machine

def raise (m : Machine) (fault : RuntimeFault) : Effect := .stop m (.runtime fault)

def pushing (m : Machine) (v : Value) (frames : List CallFrame) : Effect :=
  match m.push? v with
  | some m => .next m frames
  | none => .stop m .memory

/-- Replaces the two top values by a result. The right operand is on top, and it is gone even if
the left one is missing. -/
def arithmetic (m : Machine) (f : Int64 → Int64 → Int64) (frames : List CallFrame) : Effect :=
  match m.pop? with
  | none => m.raise .stackUnderflow
  | some (rhs, m) =>
    match m.pop? with
    | none => m.raise .stackUnderflow
    | some (lhs, m) =>
      match lhs, rhs with
      | .int a, .int b => m.pushing (.int (f a b)) frames
      | _, _ => m.raise .arithmeticOnCallable

def charge (m : Machine) (bytes : UInt64) (frames : List CallFrame) : Effect :=
  let total := saturatingAdd m.allocated bytes
  if m.limits.memory < total then .stop m .memory else .next { m with allocated := total } frames

def execute (m : Machine) (op : Op) (frames : List CallFrame) : Effect :=
  match op with
  | .push n => m.pushing (.int n) frames
  | .pop =>
    match m.pop? with
    | none => m.raise .stackUnderflow
    | some (_, m) => .next m frames
  | .dup =>
    match m.stack.top? with
    | none => m.raise .stackUnderflow
    | some v => m.pushing v frames
  | .add => m.arithmetic (· + ·) frames
  | .sub => m.arithmetic (· - ·) frames
  | .jump target => .next m (jumpTo target frames)
  | .jumpz target =>
    match m.pop? with
    | none => m.raise .stackUnderflow
    | some (v, m) => .next m (if v = .int 0 then jumpTo target frames else frames)
  | .call function =>
    if m.limits.callDepth.toNat ≤ frames.length then m.raise .callDepth
    else .next m (⟨function, 0⟩ :: frames)
  | .ret => .next m frames.tail
  | .raise message => m.raise (.raised message)
  | .host name => .host name
  | .alloc bytes => m.charge bytes frames

def count (m : Machine) : Machine := { m with executed := m.executed + 1 }

def leave (m : Machine) (base : Nat) (mark : UInt64) : Machine :=
  { m.truncate base with allocated := mark }

end Machine

end TaskLoop
