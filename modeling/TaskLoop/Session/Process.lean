import TaskLoop.Session.Perform

namespace TaskLoop

def World.actionDone (w : World) (action : Action) (rest : List Action)
    (complaint : Option String) (reply : Reply) (k : Pending .routine) : Process :=
  (w.logged (.did action reply)).performAll rest (complaint <|> reply.complaint?) k

def Activation.resume {a b : Hole} (f : Activation a b) (result : a.Result) (w : World)
    (k : Pending b) : Process :=
  match f with
  | .routine action rest complaint => w.actionDone action rest complaint result k
  | .unheeded => w.deliver k ()
  | .idle verdict => w.deliver k verdict
  | .firing q id => w.timerFired q id k
  | .quiet name onDrop => w.destroyCallback name onDrop (.cons .rested k)
  | .rested => w.deliver k .done
  | .script q id task base => w.scriptReturned q id task base result k
  | .turn q id progress => w.endTurn q id progress result k
  | .walk q next progress => w.walkOn q next progress k
  | .drain q => w.drainOn q k
  | .forever q =>
    match result with
    | .stopped => w.deliver k .null
    | .drained => w.startRun q (.cons (.forever q) k)
  | .passReply => w.deliver k (.nat result)
  | .runReply => w.deliver k (.outcome result)
  | .callReply =>
    match result with
    | .ok _ => w.deliver k .ok
    | .error e => w.deliver k (.callError e)
  | .doneReply reply => w.deliver k reply
  | .machine e call => w.runMachine e call k
  | .counted e call op => w.executeOp e call op k
  | .host e call name taken => w.hostReturned e call name taken result k
  | .pacer e call => w.runPacer e call k
  | .triggered e instruction depth call => w.tickPacer e instruction depth call k
  | .sweep [] => w.deliver k ()
  | .sweep (task :: rest) => w.destroy task (.cons (.sweep rest) k)
  | .cleanup payload _ => w.unwind payload k

/-- Lets a payload leave an activation. The step of a script keeps the cancellation of its own task
to itself, a machine gives back what its call has allocated, and what an activation owned is
destroyed on the way. -/
def Activation.unwind {a b : Hole} (f : Activation a b) (payload : Payload) (w : World)
    (k : Pending b) : Process :=
  match f with
  | .quiet name onDrop => w.destroyCallback name onDrop (.cons (.cleanup payload .verdict) k)
  | .script q id task base =>
    if payload = .cancelled id then w.scriptReturned q id task base (.ok ()) k
    else w.unwind payload k
  | .turn q _ _ => w.abandonTurn q payload k
  | .machine e call | .counted e call _ | .host e call _ _ =>
    (w.modifyMachine e fun m => { m with allocated := call.mark }).unwind payload k
  | .sweep rest => w.deliver (.cons (.sweep rest) (.cons (.cleanup payload .done) k)) ()
  | .cleanup _ _ => ⟨w, .aborted⟩
  | _ => w.unwind payload k

namespace Process

def isOver (p : Process) : Bool :=
  match p.control with
  | .answered _ | .escaped _ | .aborted => true
  | _ => false

def step (p : Process) : Process :=
  match p.control with
  | .perform action k => p.world.perform action k
  | .deliver reply .outermost => ⟨p.world, .answered reply⟩
  | .deliver result (.cons top k) => top.resume result p.world k
  | .unwind payload .outermost => ⟨p.world, .escaped payload⟩
  | .unwind payload (.cons top k) => top.unwind payload p.world k
  | .answered _ | .escaped _ | .aborted => p

def run : Nat → Process → Process
  | 0, p => p
  | fuel + 1, p => if p.isOver then p else run fuel p.step

@[simp]
theorem run_zero (p : Process) : run 0 p = p := rfl

theorem step_of_isOver {p : Process} (h : p.isOver = true) : p.step = p := by
  obtain ⟨w, control⟩ := p
  cases control with
  | answered | escaped | aborted => rfl
  | perform | deliver | unwind => simp [isOver] at h

theorem run_of_isOver {p : Process} (h : p.isOver = true) (fuel : Nat) : p.run fuel = p := by
  cases fuel with
  | zero => rfl
  | succ fuel => simp [run, h]

/-- One more unit of fuel is one more step at the start. -/
theorem run_succ (fuel : Nat) (p : Process) : p.run (fuel + 1) = p.step.run fuel := by
  by_cases h : p.isOver = true
  · rw [step_of_isOver h, run_of_isOver h, run_of_isOver h]
  · simp [run, h]

/-- Fuel can be spent in two helpings. -/
theorem run_add (m n : Nat) (p : Process) : p.run (m + n) = (p.run m).run n := by
  induction m generalizing p with
  | zero => simp
  | succ m ih => rw [Nat.succ_add, run_succ, run_succ, ih]

/-- More fuel keeps an end that has been reached. -/
theorem run_of_le {m n : Nat} {p : Process} (h : (p.run m).isOver = true) (hmn : m ≤ n) :
    p.run n = p.run m := by
  rw [← Nat.add_sub_cancel' hmn, run_add, run_of_isOver h]

end Process

end TaskLoop
