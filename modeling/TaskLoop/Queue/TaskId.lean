
namespace TaskLoop

/-- A slot of a queue, counted from one, and the version of the slot that the task lives in. -/
structure TaskId where
  slot : Nat
  version : Nat
deriving DecidableEq, Repr

namespace TaskId

/-- The id that no queue ever gives out: its slot is past the last one that a queue can have. -/
def null : TaskId := ⟨4294967295, 1⟩

def text (id : TaskId) : String :=
  if id = null then "TaskId(null)" else s!"TaskId({id.slot}v{id.version})"

end TaskId

end TaskLoop
