
namespace TaskLoop

inductive Op where
  | push (n : Int64)
  | pop
  | dup
  | add
  | sub
  | jump (target : Nat)
  | jumpz (target : Nat)
  | call (function : Nat)
  | ret
  | raise (message : String)
  | host (name : String)
  | alloc (bytes : UInt64)
deriving DecidableEq, Repr

/-- The code of a function. `lines` gives, for each instruction, the source line that it was written on.
The main chunk has the empty name. -/
structure FunctionCode where
  name : String
  code : Array Op
  lines : Array Nat
deriving DecidableEq, Repr

structure Program where
  chunk : String
  functions : Array FunctionCode
deriving DecidableEq, Repr

namespace Program

def main? (p : Program) : Option FunctionCode := p.functions[0]?

/-- The index of the first function of that name; the empty name finds the main chunk. -/
def find? (p : Program) (name : String) : Option Nat := p.functions.findIdx? (·.name == name)

def op? (p : Program) (function pc : Nat) : Option Op :=
  p.functions[function]? >>= (·.code[pc]?)

def line (p : Program) (function pc : Nat) : Nat :=
  (p.functions[function]? >>= (·.lines[pc]?)).getD 0

end Program

end TaskLoop
