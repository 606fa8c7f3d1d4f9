import TaskLoop.Proofs.Frame

namespace TaskLoop

variable {a b c : Hole} {base base' : Pending c}

namespace Pending

inductive Alike (base base' : Pending c) : {a : Hole} → Pending a → Pending a → Prop
  | base : Alike base base' base base'
  | cons {a b : Hole} (f : Activation a b) {k k' : Pending b} (rest : Alike base base' k k') :
      Alike base base' (.cons f k) (.cons f k')

theorem Alike.depth_le {k k' : Pending a} (h : base.Alike base' k k') : base.depth ≤ k.depth := by
  induction h with
  | base => exact Nat.le_refl _
  | cons f rest ih => exact Nat.le_succ_of_le ih

theorem Alike.upon {k k' : Pending a} (h : Alike base base' k k') : base'.Upon k' := by
  induction h with
  | base => exact .refl
  | cons f rest ih => exact .cons f ih

end Pending

inductive Control.Alike (base base' : Pending c) : Control → Control → Prop
  | perform (action : Action) {k k' : Pending .reply} (stack : base.Alike base' k k') :
      Alike base base' (.perform action k) (.perform action k')
  | deliver {a : Hole} (result : a.Result) {k k' : Pending a} (stack : base.Alike base' k k') :
      Alike base base' (.deliver result k) (.deliver result k')
  | unwind {a : Hole} (payload : Payload) {k k' : Pending a} (stack : base.Alike base' k k') :
      Alike base base' (.unwind payload k) (.unwind payload k')
  | aborted : Alike base base' .aborted .aborted

structure Process.Alike (base base' : Pending c) (p p' : Process) : Prop where
  world : p.world = p'.world
  control : p.control.Alike base base' p'.control

namespace World

variable {w : World} {q e : Nat}

section

variable {k k' : Pending a} (h : base.Alike base' k k')

include h

theorem alike_deliver (w : World) (result : a.Result) :
    (w.deliver k result).Alike base base' (w.deliver k' result) := ⟨rfl, .deliver result h⟩

theorem alike_unwind (w : World) (payload : Payload) :
    (w.unwind payload k).Alike base base' (w.unwind payload k') := ⟨rfl, .unwind payload h⟩

end

theorem alike_performAll {k k' : Pending .routine} (h : base.Alike base' k k') (w : World)
    (actions : List Action) (complaint : Option String) :
    (w.performAll actions complaint k).Alike base base' (w.performAll actions complaint k') := by
  cases actions with
  | nil => exact alike_deliver h w complaint
  | cons action rest => exact ⟨rfl, .perform action (.cons _ h)⟩

theorem alike_callBack {k k' : Pending .routine} (h : base.Alike base' k k') (w : World)
    (actions : List Action) : (w.callBack actions k).Alike base base' (w.callBack actions k') :=
  alike_performAll h w actions none

section

variable {k k' : Pending .done} (h : base.Alike base' k k')

include h

theorem alike_destroyCallback (w : World) (name : String) (onDrop : Option (List Action)) :
    (w.destroyCallback name onDrop k).Alike base base' (w.destroyCallback name onDrop k') := by
  cases onDrop with
  | none => exact alike_deliver h w ()
  | some actions => exact alike_callBack (.cons .unheeded h) _ actions

theorem alike_destroy (w : World) (task : Task) :
    (w.destroy task k).Alike base base' (w.destroy task k') := by
  cases task with
  | idle t | timer t => exact alike_destroyCallback h w t.name t.onDrop
  | script t => exact alike_deliver h _ ()
  | watcher t =>
    simp only [destroy]
    split
    · exact alike_deliver h w ()
    · exact alike_destroyCallback h w _ _

theorem alike_fireHook (w : World) (hook : Hook) (instruction depth : Nat) :
    (w.fireHook hook instruction depth k).Alike base base'
      (w.fireHook hook instruction depth k') := by
  unfold fireHook
  split
  · split
    · exact alike_deliver h w ()
    · exact alike_unwind h w _
  · exact alike_callBack (.cons .unheeded h) _ _

end

section

variable {k k' : Pending .call} (h : base.Alike base' k k')

include h

theorem alike_failMachine (w : World) (e : Nat) (call : MachineCall) (fault : Fault) :
    (w.failMachine e call fault k).Alike base base' (w.failMachine e call fault k') := by
  cases fault with
  | memory => exact alike_deliver h _ _
  | runtime fault => exact alike_deliver h _ _

theorem alike_callHost (w : World) (e : Nat) (call : MachineCall) (name : String) :
    (w.callHost e call name k).Alike base base' (w.callHost e call name k') := by
  unfold callHost
  split
  · exact alike_failMachine h w e call _
  · dsimp only
    split
    · exact alike_deliver (.cons (.machine e call) h) _ ()
    · exact alike_callBack (.cons _ h) _ _

theorem alike_executeOp (w : World) (e : Nat) (call : MachineCall) (op : Op) :
    (w.executeOp e call op k).Alike base base' (w.executeOp e call op k') := by
  unfold executeOp
  split
  · exact alike_deliver h w _
  · split
    · exact alike_deliver (.cons (.machine e _) h) _ ()
    · exact alike_failMachine h _ e call _
    · exact alike_callHost h w e call _

theorem alike_runMachine (w : World) (e : Nat) (call : MachineCall) :
    (w.runMachine e call k).Alike base base' (w.runMachine e call k') := by
  unfold runMachine
  split
  · exact alike_deliver h _ _
  · dsimp only
    split
    · exact alike_executeOp h _ e _ _
    · exact alike_fireHook (.cons _ h) _ _ _ _

theorem alike_hostReturned (w : World) (e : Nat) (call : MachineCall) (name : String)
    (turn : HostCall Action) (complaint : Option String) :
    (w.hostReturned e call name turn complaint k).Alike base base'
      (w.hostReturned e call name turn complaint k') := by
  unfold hostReturned
  split
  · exact alike_deliver (.cons (.machine e call) h) w ()
  · exact alike_failMachine h w e call _

theorem alike_tickPacer (w : World) (e instruction depth : Nat) (call : PacerCall) :
    (w.tickPacer e instruction depth call k).Alike base base'
      (w.tickPacer e instruction depth call k') := by
  unfold tickPacer
  split
  · exact alike_deliver (.cons (.pacer e call) h) _ ()
  · exact alike_fireHook (.cons _ h) _ _ _ _

theorem alike_runPacer (w : World) (e : Nat) (call : PacerCall) :
    (w.runPacer e call k).Alike base base' (w.runPacer e call k') := by
  unfold runPacer
  split
  · exact alike_deliver h _ _
  · exact alike_deliver h _ _
  · dsimp only
    split
    · exact alike_tickPacer h _ e _ _ _
    · exact alike_callBack (.cons .unheeded (.cons _ h)) _ _

theorem alike_callProtected (w : World) (e key : Nat) (handler : Handler) :
    (w.callProtected e key handler k).Alike base base' (w.callProtected e key handler k') := by
  unfold callProtected
  split
  · exact alike_deliver h w _
  · exact alike_deliver h w _
  · split
    · exact alike_deliver (.cons (.machine e _) h) w ()
    · exact alike_deliver h _ _
  · split
    · exact alike_deliver h w _
    · exact alike_deliver (.cons (.pacer e _) h) _ ()

end

section

variable {k k' : Pending .verdict} (h : base.Alike base' k k')

include h

theorem alike_timerFired (w : World) (q : Nat) (id : TaskId) :
    (w.timerFired q id k).Alike base base' (w.timerFired q id k') := by
  unfold timerFired
  split
  · exact alike_deliver h w _
  · split
    · split
      · exact alike_deliver h _ _
      · exact alike_deliver h w _
    · exact alike_deliver h w _

theorem alike_stepTask (w : World) (q : Nat) (id : TaskId) (task : Task) :
    (w.stepTask q id task k).Alike base base' (w.stepTask q id task k') := by
  obtain ⟨s, _, hs⟩ := w.exists_opens q id task
  rw [hs, hs]
  cases s with
  | settles w verdict => exact alike_deliver h w verdict
  | invokes w actions f => exact alike_callBack (.cons f h) w actions
  | calls w e key f => exact alike_callProtected (.cons f h) w e key .traceback

end

section

variable {k k' : Pending .pass} (h : base.Alike base' k k')

include h

theorem alike_walkOn (w : World) (q : Nat) (next : Option TaskId) (walk : Walk) :
    (w.walkOn q next walk k).Alike base base' (w.walkOn q next walk k') := by
  unfold walkOn
  split
  · exact alike_deliver h _ _
  · split
    · exact alike_deliver h _ _
    · exact alike_stepTask (.cons _ h) _ q _ _

theorem alike_startPass (w : World) (q : Nat) :
    (w.startPass q k).Alike base base' (w.startPass q k') := by
  unfold startPass
  split
  · exact alike_deliver h w _
  · split
    · exact alike_deliver h w _
    · exact alike_walkOn h w q _ _

theorem alike_endTurn (w : World) (q : Nat) (id : TaskId) (walk : Walk) (verdict : Verdict) :
    (w.endTurn q id walk verdict k).Alike base base' (w.endTurn q id walk verdict k') := by
  unfold endTurn
  split
  · exact alike_deliver h w _
  · dsimp only
    split
    · exact alike_destroy (.cons _ h) _ _
    · split
      · exact alike_deliver (.cons (.walk q _ _) h) _ ()
      · exact alike_destroy (.cons _ h) _ _

theorem alike_abandonTurn (w : World) (q : Nat) (payload : Payload) :
    (w.abandonTurn q payload k).Alike base base' (w.abandonTurn q payload k') := by
  unfold abandonTurn
  split
  · exact alike_unwind h w payload
  · dsimp only
    split
    · exact alike_unwind h _ payload
    · exact alike_destroy (.cons _ h) _ _

end

section

variable {k k' : Pending .run} (h : base.Alike base' k k')

include h

theorem alike_drainOn (w : World) (q : Nat) : (w.drainOn q k).Alike base base' (w.drainOn q k') := by
  unfold drainOn
  split
  · exact alike_deliver h w _
  · split
    · exact alike_deliver h _ _
    · split
      · exact alike_deliver h w _
      · exact alike_startPass (.cons _ h) w q

theorem alike_startRun (w : World) (q : Nat) : (w.startRun q k).Alike base base' (w.startRun q k') := by
  unfold startRun
  split
  · exact alike_deliver h w _
  · exact alike_drainOn h w q

end

section

variable {k k' : Pending .reply} (h : base.Alike base' k k')

include h

theorem alike_removeTask (w : World) (q : Nat) (queue : Queue) (id : TaskId) :
    (w.removeTask q queue id k).Alike base base' (w.removeTask q queue id k') := by
  unfold removeTask
  split
  · exact alike_deliver h w _
  · split
    · exact alike_deliver h _ _
    · exact alike_destroy (.cons _ h) _ _

theorem alike_performOnQueue {Q : Queue} (hQ : w.queue? q = some Q) (action : QueueAction Action) :
    (w.performOnQueue q Q action k).Alike base base' (w.performOnQueue q Q action k') := by
  cases hrun : (Action.queue q action).run? with
  | some =>
    cases action with
    | runPass => exact alike_startPass (.cons .passReply h) w q
    | runOnce => exact alike_startRun (.cons .runReply h) w q
    | runForever => exact alike_startRun (.cons (.forever q) h) w q
    | _ => cases hrun
  | none =>
    cases hremoved : (Action.queue q action).removed? with
    | some name =>
      obtain rfl := Action.eq_of_removed? hremoved
      exact alike_removeTask h w q Q _
    | none =>
      obtain ⟨w', reply, _, heq⟩ := exists_performOnQueue_eq hQ hrun hremoved
      rw [heq, heq]
      exact alike_deliver h w' reply

theorem alike_performOnEngine {E : Engine} (hE : w.engine? e = some E)
    (action : EngineAction Action) :
    (w.performOnEngine e E action k).Alike base base' (w.performOnEngine e E action k') := by
  obtain ⟨s, _, hs⟩ := exists_runs hE action
  rw [hs, hs]
  cases s with
  | answers w reply => exact alike_deliver h w reply
  | calls w e key handler => exact alike_callProtected (.cons .callReply h) w e key handler

theorem alike_perform (w : World) (action : Action) :
    (w.perform action k).Alike base base' (w.perform action k') := by
  cases action with
  | unwind message => exact alike_unwind h w _
  | queue q action =>
    simp only [perform]
    split
    · exact alike_deliver h w _
    · next hQ => exact alike_performOnQueue h hQ action
  | engine e action =>
    simp only [perform]
    split
    · exact alike_deliver h w _
    · next hE => exact alike_performOnEngine h hE action
  | _ => exact alike_deliver h _ _

end

end World

namespace Activation

variable {k k' : Pending b} (h : base.Alike base' k k')

include h

theorem alike_resume (f : Activation a b) (result : a.Result) (w : World) :
    (f.resume result w k).Alike base base' (f.resume result w k') := by
  cases f with
  | routine action rest complaint => exact World.alike_performAll h _ _ _
  | firing q id => exact World.alike_timerFired h w q id
  | quiet name onDrop => exact World.alike_destroyCallback (.cons .rested h) w name onDrop
  | turn q id walk => exact World.alike_endTurn h w q id walk result
  | walk q next walk => exact World.alike_walkOn h w q next walk
  | drain q => exact World.alike_drainOn h w q
  | forever q =>
    cases result with
    | stopped => exact World.alike_deliver h w _
    | drained => exact World.alike_startRun (.cons (.forever q) h) w q
  | callReply =>
    cases result with
    | ok | error => exact World.alike_deliver h w _
  | machine e call => exact World.alike_runMachine h w e call
  | counted e call op => exact World.alike_executeOp h w e call op
  | host e call name turn => exact World.alike_hostReturned h w e call name turn result
  | pacer e call => exact World.alike_runPacer h w e call
  | triggered e instruction depth call => exact World.alike_tickPacer h w e instruction depth call
  | sweep rest =>
    cases rest with
    | nil => exact World.alike_deliver h w ()
    | cons task rest => exact World.alike_destroy (.cons (.sweep rest) h) w task
  | cleanup payload => exact World.alike_unwind h w payload
  | _ => exact World.alike_deliver h _ _

theorem alike_unwind (f : Activation a b) (payload : Payload) (w : World) :
    (f.unwind payload w k).Alike base base' (f.unwind payload w k') := by
  cases f with
  | quiet name onDrop =>
    exact World.alike_destroyCallback (.cons (.cleanup payload .verdict) h) w name onDrop
  | script q id t top =>
    simp only [unwind]
    split
    · exact World.alike_deliver h _ _
    · exact World.alike_unwind h w payload
  | turn q id walk => exact World.alike_abandonTurn h w q payload
  | sweep rest =>
    exact World.alike_deliver (.cons (.sweep rest) (.cons (.cleanup payload .done) h)) w ()
  | cleanup => exact ⟨rfl, .aborted⟩
  | _ => exact World.alike_unwind h _ payload

end Activation

namespace Process

variable {p p' : Process}

/-- What two processes do next that are alike: they go on alike, or they give the two stacks the same
result or the same payload. -/
inductive Abreast (base base' : Pending c) : Process → Process → Prop
  | above {p p' : Process} (deeper : base.depth < p.control.depth)
      (next : p.step.Alike base base' p'.step) : Abreast base base' p p'
  | result (w : World) (result : c.Result) :
      Abreast base base' (w.deliver base result) (w.deliver base' result)
  | payload (w : World) (payload : Payload) :
      Abreast base base' (w.unwind payload base) (w.unwind payload base')
  | aborted (w : World) : Abreast base base' ⟨w, .aborted⟩ ⟨w, .aborted⟩

/-- A transition does not depend on the stack below. -/
theorem Alike.abreast (h : p.Alike base base' p') (hc : c ≠ .reply) : Abreast base base' p p' := by
  obtain ⟨w, control⟩ := p
  obtain ⟨w', control'⟩ := p'
  obtain ⟨hworld, hcontrol⟩ := h
  dsimp only at hworld hcontrol
  subst hworld
  cases hcontrol with
  | perform action stack =>
    cases stack with
    | base => exact absurd rfl hc
    | cons f rest =>
      exact .above (Nat.lt_succ_of_le rest.depth_le) (World.alike_perform (.cons f rest) w action)
  | deliver result stack =>
    cases stack with
    | base => exact .result w result
    | cons f rest =>
      refine .above (Nat.lt_succ_of_le rest.depth_le) ?_
      rw [step_deliver, step_deliver]
      exact f.alike_resume rest result w
  | unwind payload stack =>
    cases stack with
    | base => exact .payload w payload
    | cons f rest =>
      refine .above (Nat.lt_succ_of_le rest.depth_le) ?_
      rw [step_unwind, step_unwind]
      exact f.alike_unwind rest payload w
  | aborted => exact .aborted w

/-- The second process is on top of its stack, unless everything is over. -/
theorem Alike.upon (h : p.Alike base base' p') (hp : p.control ≠ .aborted) :
    p'.control.Upon base' := by
  obtain ⟨w, control⟩ := p
  obtain ⟨w', control'⟩ := p'
  obtain ⟨_, hcontrol⟩ := h
  cases hcontrol with
  | perform _ stack | deliver _ stack | unwind _ stack => exact stack.upon
  | aborted => exact absurd rfl hp

theorem Alike.eq_aborted (h : p.Alike base base' p') (hp : p.control = .aborted) :
    p' = ⟨p.world, .aborted⟩ := by
  obtain ⟨w, control⟩ := p
  obtain ⟨w', control'⟩ := p'
  obtain ⟨hworld, hcontrol⟩ := h
  dsimp only at hp hworld hcontrol
  subst hp hworld
  cases hcontrol
  rfl

end Process

end TaskLoop
