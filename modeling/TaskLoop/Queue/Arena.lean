import TaskLoop.Queue.TaskId

namespace TaskLoop

/-- A slot, filled or empty. Its version is odd while it is filled. -/
structure Slot (α : Type) where
  version : Nat
  record : Option α

/-- Records in slots, under ids that are never given out twice. `free` holds the empty slots, the last one
emptied in front. -/
structure Arena (α : Type) where
  slots : Array (Slot α) := #[]
  free : List Nat := []

namespace Arena

variable {α : Type}

def position? (a : Arena α) (id : TaskId) : Option Nat :=
  if 0 < id.slot ∧ (a.slots[id.slot - 1]?.map (·.version)) = some id.version
  then some (id.slot - 1) else none

def get? (a : Arena α) (id : TaskId) : Option α :=
  a.position? id >>= fun i => a.slots[i]? >>= (·.record)

def contains (a : Arena α) (id : TaskId) : Bool := (a.get? id).isSome

def insert (a : Arena α) (record : α) : TaskId × Arena α :=
  match a.free with
  | [] => (⟨a.slots.size + 1, 1⟩, { a with slots := a.slots.push ⟨1, some record⟩ })
  | i :: rest =>
    let version := (a.slots[i]?.map (·.version)).getD 0 + 1
    (⟨i + 1, version⟩, ⟨a.slots.setIfInBounds i ⟨version, some record⟩, rest⟩)

def remove? (a : Arena α) (id : TaskId) : Option (α × Arena α) :=
  (a.get? id).map fun record =>
    (record, ⟨a.slots.setIfInBounds (id.slot - 1) ⟨id.version + 1, none⟩, (id.slot - 1) :: a.free⟩)

def modify (a : Arena α) (id : TaskId) (f : α → α) : Arena α :=
  match a.position? id with
  | none => a
  | some i => { a with slots := a.slots.modify i fun s => { s with record := s.record.map f } }

def records (a : Arena α) : List α := a.slots.toList.filterMap (·.record)

end Arena

end TaskLoop
