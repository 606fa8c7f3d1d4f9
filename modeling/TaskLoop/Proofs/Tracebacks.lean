import Mathlib
import TaskLoop.Proofs.CallChain

namespace TaskLoop

variable {a : Hole} {w w₁ w' : World} {e key n : Nat} {k : Pending .call} {call : MachineCall} {op : Op}
  {p : Program} {handler : Handler} {P : Process} {text : String} {fault : RuntimeFault}

namespace Source

variable {chunk : String} {source : List Char}

end Source

namespace Process

end Process

end TaskLoop
