import TaskLoop.Program

namespace TaskLoop

inductive Value where
  | int (n : Int64)
  | callable (program : Program)
deriving DecidableEq, Repr

/-- A stack of values, the top in front. -/
structure ValueStack where
  items : List Value := []
  height : Nat := 0
  height_eq : height = items.length := by rfl

namespace ValueStack

def empty : ValueStack := {}

def push (s : ValueStack) (v : Value) : ValueStack where
  items := v :: s.items
  height := s.height + 1
  height_eq := by simp [s.height_eq]

def top? (s : ValueStack) : Option Value := s.items.head?

def pop (s : ValueStack) : ValueStack where
  items := s.items.tail
  height := s.height - 1
  height_eq := by simp [s.height_eq]

def truncate (s : ValueStack) (height : Nat) : ValueStack where
  items := s.items.drop (s.height - height)
  height := min s.height height
  height_eq := by simp [s.height_eq]; omega

@[ext] theorem ext {s t : ValueStack} (h : s.items = t.items) : s = t := by
  cases s; cases t; simp_all

@[simp] theorem items_push (s : ValueStack) (v : Value) : (s.push v).items = v :: s.items := rfl

@[simp] theorem items_pop (s : ValueStack) : s.pop.items = s.items.tail := rfl

theorem items_truncate (s : ValueStack) (height : Nat) :
    (s.truncate height).items = s.items.drop (s.items.length - height) := by
  simp [truncate, s.height_eq]

end ValueStack

end TaskLoop
