
namespace TaskLoop

/-- Values under keys `0, 1, …`; `vacant` holds the freed keys, the last one freed in front. It is the first to
be taken again. -/
structure Registry (α : Type) where
  entries : Array (Option α) := #[]
  vacant : List Nat := []
deriving Repr

namespace Registry

variable {α : Type}

def get? (r : Registry α) (key : Nat) : Option α := (r.entries[key]?).join

def insert (r : Registry α) (a : α) : Nat × Registry α :=
  match r.vacant with
  | key :: rest => (key, ⟨r.entries.setIfInBounds key (some a), rest⟩)
  | [] => (r.entries.size, ⟨r.entries.push (some a), []⟩)

def erase (r : Registry α) (key : Nat) : Registry α :=
  if (r.get? key).isSome then ⟨r.entries.setIfInBounds key none, key :: r.vacant⟩ else r

def size (r : Registry α) : Nat := r.entries.countP (·.isSome)

end Registry

end TaskLoop
