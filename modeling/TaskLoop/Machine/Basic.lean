import TaskLoop.Text.Utf8
import TaskLoop.Error
import TaskLoop.Saturating
import TaskLoop.Source.Compile
import TaskLoop.Machine.Registry
import TaskLoop.Machine.ValueStack

namespace TaskLoop

structure Limits where
  memory : UInt64 := 65536
  callDepth : UInt64 := 200
  stack : UInt64 := 1024
deriving DecidableEq, Repr

/-- The state of a machine. `allocated` counts the bytes charged by the calls in progress and
`executed` every instruction since the machine was made. -/
structure Machine where
  limits : Limits := {}
  stack : ValueStack := .empty
  registry : Registry Value := {}
  allocated : UInt64 := 0
  executed : Nat := 0

namespace Machine

def push? (m : Machine) (v : Value) : Option Machine :=
  if m.stack.height < m.limits.stack.toNat then some { m with stack := m.stack.push v } else none

def pop? (m : Machine) : Option (Value × Machine) :=
  m.stack.top?.map fun v => (v, { m with stack := m.stack.pop })

/-- Takes an integer from the top; any other top value stays. -/
def popInt? (m : Machine) : Option (Int64 × Machine) :=
  match m.stack.top? with
  | some (.int n) => some (n, { m with stack := m.stack.pop })
  | _ => none

def truncate (m : Machine) (height : Nat) : Machine := { m with stack := m.stack.truncate height }

def readSource (chunk : String) (bytes : List UInt8) : Except LoadError Program :=
  match Text.Utf8.decode bytes with
  | .error fault => .error (.malformed s!"{chunk}: {fault.message}")
  | .ok source =>
    match Source.compile chunk source with
    | .error diagnostic => .error (.malformed (diagnostic.message chunk))
    | .ok program => .ok program

/-- Compiles a source and leaves the program on the stack. The size of the source counts against
the memory limit before anything is read. -/
def load (m : Machine) (chunk : String) (bytes : List UInt8) : Except LoadError Machine :=
  if m.limits.memory.toNat < bytes.length then
    .error (.memory s!"chunk '{chunk}' needs {bytes.length} bytes, limit is {m.limits.memory.toNat}")
  else
    match readSource chunk bytes with
    | .error e => .error e
    | .ok program =>
      match m.push? (.callable program) with
      | none => .error (.memory "stack overflow")
      | some m => .ok m

def reference? (m : Machine) : Option (Nat × Machine) :=
  match m.pop? with
  | none => none
  | some (v, m) =>
    let (key, registry) := m.registry.insert v
    some (key, { m with registry })

def unreference (m : Machine) (key : Nat) : Machine :=
  { m with registry := m.registry.erase key }

end Machine

end TaskLoop
