import TaskLoop.Session.Process

namespace TaskLoop

abbrev Clock := Nat → UInt64

namespace Clock

def still (now : UInt64) : Clock := fun _ => now

def steady (steps : Nat) : Clock := fun made => UInt64.ofNat (made / steps)

end Clock

namespace Process

def atTime (p : Process) (now : UInt64) : Process := { p with world := p.world.setClock now }

/-- Repeats steps as `run` does while the clock runs, when so many steps have been made before. The clock is
read before every step, so that a script that waits for the time to change sees it change. -/
def runUnder (clock : Clock) (made : Nat) : Nat → Process → Process
  | 0, p => p
  | fuel + 1, p =>
    if p.isOver then p else runUnder clock (made + 1) fuel (p.atTime (clock made)).step

theorem runUnder_of_isOver (clock : Clock) (made : Nat) {p : Process} (h : p.isOver = true)
    (fuel : Nat) : p.runUnder clock made fuel = p := by
  cases fuel with
  | zero => rfl
  | succ fuel => simp [runUnder, h]

end Process

end TaskLoop
