import TaskLoop.Proofs.Machines

namespace TaskLoop

variable {a b c : Hole}

def Activation.Plain : Activation a b → Prop
  | .routine .. | .unheeded | .callReply | .doneReply .. | .machine .. | .counted .. | .host ..
  | .pacer .. | .triggered .. => True
  | _ => False

inductive Pending.Over (k : Pending c) : {a : Hole} → Pending a → Prop
  | refl : Over k k
  | cons {a b : Hole} {f : Activation a b} {k' : Pending b} (plain : f.Plain) (above : k.Over k') :
      Over k (.cons f k')

theorem Pending.Over.trans {k : Pending c} {k' : Pending b} {k'' : Pending a} (h : k.Over k')
    (h' : k'.Over k'') : k.Over k'' := by
  induction h' with
  | refl => exact h
  | cons plain _ ih => exact .cons plain ih

namespace Control

def payload? : Control → Option Payload
  | .unwind payload _ => some payload
  | .escaped payload => some payload
  | _ => none

def Over (k : Pending c) : Control → Prop
  | .perform _ k' => k.Over k'
  | .deliver _ k' => k.Over k'
  | .unwind _ k' => k.Over k'
  | _ => False

end Control

def Pending.ticked? : {a : Hole} → Pending a → Option Nat
  | _, .cons (.counted e _ _) _ => some e
  | _, .cons (.pacer e _) _ => some e
  | _, _ => none

def World.hook? (w : World) (e : Nat) : Option Hook :=
  (w.engine? e >>= (·.probe?)).map (·.hook)

def Process.Cancels (p : Process) (q : Nat) (id : TaskId) : Prop :=
  ∃ (a : Hole) (k : Pending a) (e : Nat) (Q : Queue), p.control = .unwind (.cancelled id) k ∧
    k.ticked? = some e ∧ p.world.hook? e = some (.cancel q) ∧
    p.world.queue? q = some Q ∧ Q.cancelled? = some id

/-- What goes on is on top of the given stack, in a world with the given property. A cancellation
that begins comes from the hook of a queue. -/
structure Process.Within (R : World → Prop) (k : Pending c) (p : Process) : Prop where
  world : R p.world
  stack : p.control.Over k
  raised : ∀ id, p.control.payload? = some (.cancelled id) → ∃ q, p.Cancels q id

theorem Process.Within.mono {R S : World → Prop} {k : Pending c} {p : Process}
    (h : p.Within R k) (hRS : ∀ {w}, R w → S w) : p.Within S k :=
  ⟨hRS h.world, h.stack, h.raised⟩

theorem Process.Within.lower {R : World → Prop} {f : Activation a b} {k : Pending b} {p : Process}
    (h : p.Within R (.cons f k)) (plain : f.Plain) : p.Within R k := by
  refine ⟨h.world, ?_, h.raised⟩
  have hs := h.stack
  have hk : k.Over (.cons f k) := .cons plain .refl
  cases hc : p.control with
  | perform | deliver | unwind => rw [hc] at hs; exact hk.trans hs
  | answered | escaped | aborted => rw [hc] at hs; exact hs

def World.Lasting (T : Nat → Prop) (R : World → Prop) : Prop :=
  ∀ ⦃w w' : World⦄, R w → w.Aside T w' → R w'

/-- What callbacks and protected calls do to the world on their own. Only the given engines have
instructions counted. -/
inductive World.Chore (T : Nat → Prop) (w : World) : World → Prop
  | log {event : Event} (aside : event.ofTurn = false) (kept : event.dropped? = none) :
      Chore T w (w.logged event)
  | machine {e : Nat} {m m' : Machine} (before : w.machine? e = some m)
      (executed : m'.executed = m.executed) (registry : m'.registry = m.registry) :
      Chore T w (w.setMachine e m')
  | engine {e : Nat} {f : Engine → Engine} (pulse : ∀ E, (f E).pulse = E.pulse)
      (machine : ∀ E, (f E).machine? = E.machine?) : Chore T w (w.modifyEngine e f)
  | count {e : Nat} (touched : T e) : Chore T w (w.countInstruction e)
  | tick {e : Nat} (touched : T e) : Chore T w (w.tickHook e).2

def World.Robust (T : Nat → Prop) (R : World → Prop) : Prop :=
  ∀ ⦃w w' : World⦄, R w → w.Chore T w' → R w'

def Task.Unhooks (task : Task) (e : Nat) : Prop :=
  ∃ t, task = .script t ∧ t.ran = false ∧ t.armed = true ∧ t.engine = e

namespace World

theorem lasting_aside (w : World) (T : Nat → Prop) : Lasting T (w.Aside T) :=
  fun _ _ h h' => h.trans h'

theorem lasting_follows (w : World) (I : Nat → TaskId → Prop) (T : Nat → Prop) :
    Lasting T (w.Follows I T) := fun _ _ h h' => h.trans h'.follows

variable {T : Nat → Prop} {R : World → Prop} {w : World}

theorem aside_countInstruction (w : World) (e : Nat) (he : T e) : w.Aside T (w.countInstruction e) :=
  aside_modifyEngine w e (fun E _ => by simp) fun _ _ ht => absurd he ht

theorem aside_tickHook (w : World) (e : Nat) (he : T e) : w.Aside T (w.tickHook e).2 := by
  have hset : ∀ probe : Option Probe, w.Aside T (w.modifyEngine e (·.setProbe probe)) :=
    fun probe => aside_modifyEngine w e (fun E _ => by simp) fun _ _ ht => absurd he ht
  unfold tickHook
  split
  · exact Aside.refl w
  · dsimp only
    split
    · exact hset _
    · exact hset _

theorem Chore.aside {w' : World} (h : w.Chore T w') : w.Aside T w' := by
  cases h with
  | log aside => exact aside_logged w aside
  | machine before executed => exact aside_setMachine before executed
  | engine pulse => exact aside_modifyEngine_of_pulse w _ fun E _ => pulse E
  | count touched => exact aside_countInstruction w _ touched
  | tick touched => exact aside_tickHook w _ touched

theorem Lasting.robust (hR : Lasting T R) : Robust T R := fun _ _ hw h => hR hw h.aside

theorem Robust.modifyMachine (hR : Robust T R) (hw : R w) (e : Nat) {f : Machine → Machine}
    (h : ∀ m, (f m).executed = m.executed ∧ (f m).registry = m.registry) :
    R (w.modifyMachine e f) := by
  unfold World.modifyMachine
  split
  · exact hw
  · next m hm => exact hR hw (.machine hm (h m).1 (h m).2)

theorem Robust.handle (hR : Robust T R) (hw : R w) (handler : Handler) (message : String)
    (frames : List TraceFrame) : R (w.handle handler message frames).2 := by
  cases handler with
  | traceback => exact hw
  | recording => exact hR hw (.log rfl rfl)

theorem hook?_tickHook {e q : Nat} {hook : Hook} {w' : World}
    (h : w.tickHook e = (some hook, w')) (hook_eq : hook = .cancel q) :
    w'.hook? e = some (.cancel q) := by
  unfold tickHook at h
  split at h
  · cases h
  · next probe hprobe =>
    dsimp only at h
    split at h
    · cases h
      obtain ⟨E, hE, hp⟩ := Option.bind_eq_some_iff.1 hprobe
      have hset : ∀ P, (E.setProbe (some P)).probe? = some P := by
        cases E with
        | machine | pacer => exact fun _ => rfl
        | inert => cases hp
      simp [hook?, engine?_modifyEngine, hE, hset, hook_eq, Hook.rest]
    · cases h

theorem within_deliver (hw : R w) (k : Pending a) (result : a.Result) :
    (w.deliver k result).Within R k :=
  ⟨hw, .refl, by simp [deliver, Control.payload?]⟩

theorem within_resume (hw : R w) {f : Activation .done b} {k : Pending b}
    (plain : f.Plain) : (w.deliver (.cons f k) ()).Within R k :=
  (within_deliver hw (.cons f k) ()).lower plain

theorem within_performAll (hw : R w) (actions : List Action) (complaint : Option String)
    (k : Pending .routine) : (w.performAll actions complaint k).Within R k := by
  cases actions with
  | nil => exact within_deliver hw k complaint
  | cons action rest => exact ⟨hw, .cons trivial .refl, by simp [performAll, Control.payload?]⟩

theorem within_callBack (hw : R w) (actions : List Action) (k : Pending .routine) :
    (w.callBack actions k).Within R k := within_performAll hw actions none k

theorem within_destroyCallback (hR : Lasting T R) (hw : R w) (name : String)
    (onDrop : Option (List Action)) (k : Pending .done) :
    (w.destroyCallback name onDrop k).Within R k := by
  cases onDrop with
  | none => exact within_deliver hw k ()
  | some actions =>
    exact (within_callBack (hR hw (aside_logged w rfl)) actions _).lower trivial

section

variable (hR : Robust T R) (hw : R w)

include hR hw

theorem within_actionDone (action : Action) (rest : List Action) (complaint : Option String)
    (reply : Reply) (k : Pending .routine) :
    (w.actionDone action rest complaint reply k).Within R k :=
  within_performAll (hR hw (.log rfl rfl)) rest _ k

theorem within_fireHook {hook : Hook} {e : Nat} (instruction depth : Nat) {k : Pending .done}
    (hk : k.ticked? = some e) (hhook : ∀ {q}, hook = .cancel q → w.hook? e = some (.cancel q)) :
    (w.fireHook hook instruction depth k).Within R k := by
  cases hook with
  | cancel q =>
    simp only [fireHook]
    split
    · exact within_deliver hw k ()
    · next id hid =>
      refine ⟨hw, .refl, fun id' h => ?_⟩
      cases h
      obtain ⟨Q, hQ, hc⟩ := Option.bind_eq_some_iff.1 hid
      exact ⟨q, _, k, e, Q, rfl, hk, hhook rfl, hQ, hc⟩
  | user label fires =>
    exact (within_callBack (hR hw (.log rfl rfl)) _ _).lower trivial

theorem within_leaveMachine (e : Nat) (call : MachineCall) (result : Except CallError Unit)
    (k : Pending .call) : (w.leaveMachine e call result k).Within R k :=
  within_deliver (hR.modifyMachine (f := (·.leave call.base call.mark)) hw e fun _ => ⟨rfl, rfl⟩) k
    result

theorem within_failMachine (e : Nat) (call : MachineCall) (fault : Fault) (k : Pending .call) :
    (w.failMachine e call fault k).Within R k := by
  cases fault with
  | memory => exact within_leaveMachine hR hw e call _ k
  | runtime fault =>
    exact within_leaveMachine hR (hR.handle hw call.handler _ _) e call _ k

theorem within_callHost (e : Nat) (call : MachineCall) (name : String) (k : Pending .call) :
    (w.callHost e call name k).Within R k := by
  have hlog : R (w.logged (.host name)) := hR hw (.log rfl rfl)
  unfold callHost
  split
  · exact within_failMachine hR hw e call _ k
  · dsimp only
    split
    · exact within_resume hlog trivial
    · next turn rest _ =>
      have hhost := hR hlog (.engine (e := e) (fun E => E.pulse_setHost name rest) fun E =>
        E.machine?_setHost name rest)
      exact (within_callBack hhost turn.actions _).lower trivial

theorem within_executeOp (e : Nat) (call : MachineCall) (op : Op) (k : Pending .call) :
    (w.executeOp e call op k).Within R k := by
  unfold executeOp
  split
  · exact within_deliver hw k _
  · next m hm =>
    have hcount := m.hasCounted_execute op call.frames
    have hregistry := m.registry_execute op call.frames
    split
    · next m' frames heff =>
      rw [heff] at hcount hregistry
      exact within_resume (hR hw (.machine hm hcount hregistry)) trivial
    · next m' fault heff =>
      rw [heff] at hcount hregistry
      exact within_failMachine hR (hR hw (.machine hm hcount hregistry)) e call fault k
    · exact within_callHost hR hw e call _ k

theorem within_hostReturned (e : Nat) (call : MachineCall) (name : String)
    (turn : HostCall Action) (complaint : Option String) (k : Pending .call) :
    (w.hostReturned e call name turn complaint k).Within R k := by
  unfold hostReturned
  split
  · exact within_resume hw trivial
  · exact within_failMachine hR hw e call _ k

theorem within_leavePacer (e : Nat) (result : Except CallError Unit) (k : Pending .call) :
    (w.leavePacer e result k).Within R k :=
  within_deliver (hR hw (.engine Engine.pulse_popChunk Engine.machine?_popChunk)) k result

theorem within_callProtected (e key : Nat) (handler : Handler) (k : Pending .call) :
    (w.callProtected e key handler k).Within R k := by
  unfold callProtected
  split
  · exact within_deliver hw k _
  · exact within_deliver hw k _
  · split
    · exact within_resume hw trivial
    · exact within_deliver (hR.handle hw handler _ _) k _
  · split
    · exact within_deliver hw k _
    · next chunk _ =>
      exact within_resume (hR hw (.engine (·.pulse_pushChunk chunk) (·.machine?_pushChunk chunk)))
        trivial

theorem within_runMachine (e : Nat) (he : T e) (call : MachineCall) (k : Pending .call) :
    (w.runMachine e call k).Within R k := by
  have htick := hR (hR hw (.count he)) (.tick he)
  unfold runMachine
  split
  · exact within_leaveMachine hR hw e call _ k
  · dsimp only
    split
    · next w₁ h₁ => rw [h₁] at htick; exact within_executeOp hR htick e _ _ k
    · next hook w₁ h₁ =>
      rw [h₁] at htick
      exact (within_fireHook hR htick _ _ rfl (hook?_tickHook h₁)).lower trivial

theorem within_tickPacer (e : Nat) (he : T e) (instruction depth : Nat) (call : PacerCall)
    (k : Pending .call) : (w.tickPacer e instruction depth call k).Within R k := by
  have htick := hR hw (.tick he)
  unfold tickPacer
  split
  · next w₁ h₁ =>
    rw [h₁] at htick
    exact within_resume htick trivial
  · next hook w₁ h₁ =>
    rw [h₁] at htick
    exact (within_fireHook hR htick _ _ rfl (hook?_tickHook h₁)).lower trivial

theorem within_runPacer (e : Nat) (he : T e) (call : PacerCall) (k : Pending .call) :
    (w.runPacer e call k).Within R k := by
  have hcount := hR hw (.count he)
  unfold runPacer
  split
  · exact within_leavePacer hR hw e _ k
  · exact within_leavePacer hR (hR.handle hw call.handler _ _) e _ k
  · dsimp only
    split
    · exact within_tickPacer hR hcount e he _ _ _ k
    · have htrigger := hR hcount (.engine (e := e) (·.pulse_setTrigger none) (·.machine?_setTrigger none))
      exact .lower (.lower (within_callBack htrigger _ _) trivial) trivial

end

theorem aside_releaseScript (w : World) (t : ScriptTask) (h : t.armed = true → T t.engine) :
    w.Aside T (w.releaseScript t) := by
  unfold releaseScript
  have hclear : w.Aside T (if t.armed then w.modifyEngine t.engine (·.clearHook) else w) := by
    split
    · next ha =>
      exact aside_modifyEngine w t.engine (fun E _ => by simp) fun _ _ ht => absurd (h ha) ht
    · exact Aside.refl w
  dsimp only
  split
  · exact hclear.trans (aside_modifyEngine_of_pulse _ _ fun E _ => E.pulse_unreference t.key)
  · exact hclear

theorem within_destroy (hR : Lasting T R) (hw : R w) (task : Task) (h : ∀ e, task.Unhooks e → T e)
    (k : Pending .done) : (w.destroy task k).Within R k := by
  cases task with
  | idle t => exact within_destroyCallback hR hw t.name t.onDrop k
  | timer t => exact within_destroyCallback hR hw t.name t.onDrop k
  | script t =>
    refine within_deliver ?_ k ()
    split
    · exact hw
    · next hran =>
      exact hR hw (aside_releaseScript w t fun ha => h _ ⟨t, rfl, by simpa using hran, ha, rfl⟩)
  | watcher t =>
    unfold destroy
    dsimp only
    split
    · exact within_deliver hw k ()
    · exact within_destroyCallback hR hw t.name _ k

end World

def Activation.Ticks (e : Nat) : Activation a b → Prop
  | .machine e' _ | .pacer e' _ | .triggered e' _ _ _ => e' = e
  | _ => False

/-- Callbacks and protected calls go on within the stack below them. -/
theorem Activation.Plain.within {T : Nat → Prop} {R : World → Prop} {w : World}
    {f : Activation a b} (hf : f.Plain) (hR : World.Robust T R) (hw : R w)
    (hT : ∀ e, f.Ticks e → T e) (result : a.Result) (k : Pending b) :
    (f.resume result w k).Within R k := by
  cases f with
  | routine action rest complaint =>
    exact World.within_actionDone hR hw action rest complaint result k
  | unheeded | doneReply => exact World.within_deliver hw k _
  | callReply =>
    cases result with
    | ok | error => exact World.within_deliver hw k _
  | machine e call => exact World.within_runMachine hR hw e (hT e rfl) call k
  | counted e call op => exact World.within_executeOp hR hw e call op k
  | host e call name turn => exact World.within_hostReturned hR hw e call name turn result k
  | pacer e call => exact World.within_runPacer hR hw e (hT e rfl) call k
  | triggered e instruction depth call =>
    exact World.within_tickPacer hR hw e (hT e rfl) instruction depth call k
  | _ => exact hf.elim

section Over

variable {w : World}

theorem Activation.Plain.over {f : Activation a b} (hf : f.Plain) (result : a.Result) (k : Pending b) :
    (f.resume result w k).control.Over k :=
  (hf.within (T := fun _ => True) (R := fun _ => True) (fun _ _ _ _ => trivial) trivial
    (fun _ _ => trivial) result k).stack

theorem World.over_callBack {actions : List Action} {k : Pending .routine} :
    (w.callBack actions k).control.Over k := (within_callBack (R := fun _ => True) trivial actions k).stack

theorem World.over_callProtected {e key : Nat} {handler : Handler} {k : Pending .call} :
    (w.callProtected e key handler k).control.Over k :=
  (within_callProtected (T := fun _ => True) (R := fun _ => True) (fun _ _ _ _ => trivial) trivial e key
    handler k).stack

theorem World.over_destroy {task : Task} {k : Pending .done} : (w.destroy task k).control.Over k :=
  (within_destroy (T := fun _ => True) (R := fun _ => True) (fun _ _ _ _ => trivial) trivial task
    (fun _ _ => trivial) k).stack

theorem World.over_destroyCallback {name : String} {onDrop : Option (List Action)}
    {k : Pending .done} : (w.destroyCallback name onDrop k).control.Over k :=
  (within_destroyCallback (T := fun _ => True) (R := fun _ => True) (fun _ _ _ _ => trivial) trivial
    name onDrop k).stack

end Over

def Action.run? : Action → Option Nat
  | .queue q .runPass | .queue q .runOnce | .queue q .runForever => some q
  | _ => none

/-- Whether the queue is only asked for something, or its observer told or asked. -/
def QueueAction.spares {α : Type} : QueueAction α → Bool
  | .contains _ | .kind _ | .count | .isEmpty | .ids | .current | .stats | .config | .now
  | .describe | .messages | .tagged _ | .notify _ _ | .clearMessages => true
  | _ => false

def Action.onQueue : Action → Bool
  | .queue .. => true
  | _ => false

def Action.tampers : Action → Bool
  | .queue _ action => !action.spares
  | _ => false

def Action.Interrupts (w : World) (action : Action) (q : Nat) (id : TaskId) : Prop :=
  (∃ t, w.task? q id = some (.script t)) ∧ match action with
    | .queue q' (.interrupt name) => q' = q ∧ w.resolve name = id
    | .queue q' (.interruptAll ..) => q' = q
    | _ => False

/-- The action installs or clears the hook of the engine, or counts on it: it interrupts a script of
that engine, removes one that was interrupted before it ever ran, or handles the hook itself. -/
def Action.Touches (w : World) (action : Action) (e : Nat) : Prop :=
  match action with
  | .queue q (.interrupt name) =>
    ∃ task, w.task? q (w.resolve name) = some task ∧ task.engine? = some e
  | .queue q (.interruptAll ..) => ∃ id task, w.task? q id = some task ∧ task.engine? = some e
  | .queue q (.remove name) => ∃ task, w.task? q (w.resolve name) = some task ∧ task.Unhooks e
  | .engine e' (.setHook ..) | .engine e' .clearHook => e' = e
  | _ => False

namespace World

variable {I : Nat → TaskId → Prop} {T : Nat → Prop} {w : World} {q e : Nat}

theorem within_start (q : Nat) (name : String) {task : Task} (fresh : task.armed = false)
    (k : Pending .reply) : (w.start q name task k).Within (w.Follows I T) k :=
  within_deliver ((follows_push w q fresh).trans (aside_named _ name q _).follows) k _

theorem within_removeTask {Q : Queue} (hQ : w.queue? q = some Q) (id : TaskId)
    (hT : ∀ task, Q.get? id = some task → ∀ e, task.Unhooks e → T e) (k : Pending .reply) :
    (w.removeTask q Q id k).Within (w.Follows I T) k := by
  unfold removeTask
  split
  · exact within_deliver (Follows.refl w) k _
  · next task left htaken =>
    split
    · next hc => exact within_deliver (follows_setQueue hQ (.hold htaken hc)) k _
    · next hc =>
      have hleft := follows_setQueue (I := I) (T := T) hQ (.unlink htaken hc)
      exact (within_destroy (lasting_follows w I T) hleft task
        (hT task (Queue.get?_of_unlink? htaken)) _).lower trivial

theorem within_interruptOne (q : Nat) (Q : Queue) (id : TaskId)
    (hI : ∀ t, w.task? q id = some (.script t) → I q id)
    (hT : ∀ task e, w.task? q id = some task → task.engine? = some e → T e)
    (k : Pending .reply) : (w.interruptOne q Q id k).Within (w.Follows I T) k := by
  have hone := follows_interruptTask w q id hI hT
  unfold interruptOne
  split
  · generalize w.interruptTask q id = r at hone ⊢
    obtain ⟨delivered, w₁⟩ := r
    refine within_deliver ?_ k _
    cases delivered with
    | true => exact hone.trans (follows_countInterrupts w₁ q 1)
    | false => exact hone
  · exact within_deliver (Follows.refl w) k _

theorem within_performOnQueue {Q : Queue} (hQ : w.queue? q = some Q)
    {action : QueueAction Action} (hrun : (Action.queue q action).run? = none)
    (k : Pending .reply) : (w.performOnQueue q Q action k).Within
      (w.Follows ((Action.queue q action).Interrupts w) ((Action.queue q action).Touches w)) k := by
  have note : ∀ {I : Nat → TaskId → Prop} {T : Nat → Prop} (stopping : Bool)
      (messages : List Message),
      w.Follows I T (w.setQueue q { Q with stopping, messages }) := fun stopping messages =>
    follows_setQueue hQ (.note stopping Q.stats messages)
  cases action with
  | idle | timer | startScript => exact within_start q _ rfl k
  | interruptAll name actions onDrop =>
    refine within_deliver ((follows_interruptAll w q _ (fun id t h => ?_)
      fun id task e h he => ?_).trans (aside_named _ name q _).follows) k _
    · exact ⟨⟨t, h⟩, rfl⟩
    · exact ⟨id, task, h, he⟩
  | parseAndStart name e source =>
    have hstart := follows_parseAndStart
      (I := (Action.queue q (.parseAndStart name e source)).Interrupts w)
      (T := (Action.queue q (.parseAndStart name e source)).Touches w) w q e source
    simp only [performOnQueue]
    split
    · next h₁ => rw [h₁] at hstart; exact within_deliver hstart k _
    · next h₁ =>
      rw [h₁] at hstart
      exact within_deliver (hstart.trans (aside_named _ name q _).follows) k _
  | interrupt name =>
    exact within_interruptOne q Q _ (fun t h => ⟨⟨t, h⟩, rfl, rfl⟩)
      (fun task e h he => ⟨task, h, he⟩) k
  | remove name =>
    refine within_removeTask hQ _ (fun task h e he => ⟨task, ?_, he⟩) k
    exact task?_eq_some.2 ⟨Q, hQ, h⟩
  | contains | kind | count | isEmpty | ids | current | stats | config | now | describe
  | messages | tagged => exact within_deliver (Follows.refl w) k _
  | stop => exact within_deliver (note true Q.messages) k _
  | clearMessages => exact within_deliver (note Q.stopping []) k _
  | notify tag text => exact within_deliver (follows_notify w q tag text) k _
  | runPass | runOnce | runForever => cases hrun

end World

/-- What an action makes of its engine. -/
inductive Engine.Serviced (E : Engine) : EngineAction Action → Engine → Prop
  | loads {chunk : String} {source : List UInt8} {E' : Engine}
      (loaded : E.load chunk source = .ok E') : Serviced E (.load chunk source) E'
  | references {key : Nat} {E' : Engine} (referenced : E.reference? = some (key, E')) :
      Serviced E .reference E'
  | unreferences (key : Nat) : Serviced E (.unreference key) (E.unreference key)
  | hooks (every : Nat) (label : String) (fires : List (List Action)) :
      Serviced E (.setHook every label fires) (E.setHook (.user label fires) every)
  | clears : Serviced E .clearHook E.clearHook
  | truncates (height : Nat) : Serviced E (.setTop height) (E.setTop height)
  | hosts (name : String) (calls : List (HostCall Action)) :
      Serviced E (.host name calls) (E.setHost name calls)
  | triggers (instruction : Nat) (actions : List Action) :
      Serviced E (.trigger instruction actions) (E.setTrigger (some (instruction, actions)))
  | pushes {action : EngineAction Action} {m m' : Machine} {n : Int64}
      (before : E.machine? = some m) (pushed : m.push? (.int n) = some m') :
      Serviced E action (E.setMachine m')
  | pops {action : EngineAction Action} {m m' : Machine} {n : Int64}
      (before : E.machine? = some m) (popped : m.popInt? = some (n, m')) :
      Serviced E action (E.setMachine m')

/-- What an action on an engine comes to, whatever awaits the reply. -/
inductive Errand where
  | answers (w : World) (reply : Reply)
  | calls (w : World) (e key : Nat) (handler : Handler)

namespace Errand

def world : Errand → World
  | answers w _ | calls w _ _ _ => w

def on (k : Pending .reply) : Errand → Process
  | answers w reply => w.deliver k reply
  | calls w e key handler => w.callProtected e key handler (.cons .callReply k)

theorem within {T : Nat → Prop} {R : World → Prop} {s : Errand} (hR : World.Robust T R)
    (hs : R s.world) (k : Pending .reply) : (s.on k).Within R k := by
  cases s with
  | answers => exact World.within_deliver hs k _
  | calls w e key handler => exact (World.within_callProtected hR hs e key handler _).lower trivial

end Errand

namespace World

variable {I : Nat → TaskId → Prop} {T : Nat → Prop} {w : World} {q e : Nat} {E : Engine}
  {action : EngineAction Action} {s : Errand}

inductive Runs (w : World) (e : Nat) (E : Engine) : EngineAction Action → Errand → Prop
  | rests {action : EngineAction Action} (reply : Reply) : Runs w e E action (.answers w reply)
  | sets {action : EngineAction Action} {E' : Engine} (serviced : E.Serviced action E')
      (reply : Reply) : Runs w e E action (.answers (w.setEngine e E') reply)
  | prints {E' : Engine} (serviced : E.Serviced .print E') (n : Int64) :
      Runs w e E .print (.answers ((w.setEngine e E').logged (.printed n)) .ok)
  | calls (key : Nat) (handler : Handler) : Runs w e E (.call key handler) (.calls w e key handler)

theorem exists_runs_pushInt (hE : w.engine? e = some E) (action : EngineAction Action) (n : Int64) :
    ∃ s, w.Runs e E action s ∧ ∀ k, w.pushInt e n k = s.on k := by
  unfold pushInt
  split
  · exact ⟨_, .rests _, fun _ => rfl⟩
  · next m' hpush =>
    obtain ⟨m, hm, hpushed⟩ := Option.bind_eq_some_iff.1 hpush
    rw [machine?, hE] at hm
    rw [setMachine_eq_setEngine hE]
    exact ⟨_, .sets (.pushes hm hpushed) _, fun _ => rfl⟩

/-- What an engine is asked for, which is the same whatever awaits the reply. -/
theorem exists_runs (hE : w.engine? e = some E) (action : EngineAction Action) :
    ∃ s, w.Runs e E action s ∧ ∀ k, w.performOnEngine e E action k = s.on k := by
  cases action with
  | load chunk source =>
    simp only [performOnEngine]
    split
    · exact ⟨_, .rests _, fun _ => rfl⟩
    · next hload => exact ⟨_, .sets (.loads hload) _, fun _ => rfl⟩
  | reference =>
    simp only [performOnEngine]
    split
    · exact ⟨_, .rests _, fun _ => rfl⟩
    · next hreference => exact ⟨_, .sets (.references hreference) _, fun _ => rfl⟩
  | unreference key => exact ⟨_, .sets (.unreferences key) _, fun _ => rfl⟩
  | call key handler => exact ⟨_, .calls key handler, fun _ => rfl⟩
  | setHook every label fires => exact ⟨_, .sets (.hooks every label fires) _, fun _ => rfl⟩
  | clearHook => exact ⟨_, .sets .clears _, fun _ => rfl⟩
  | top | limits => exact ⟨_, .rests _, fun _ => rfl⟩
  | setTop height => exact ⟨_, .sets (.truncates height) _, fun _ => rfl⟩
  | pushInt n => exact exists_runs_pushInt hE _ n
  | popInt =>
    simp only [performOnEngine]
    split
    · exact ⟨_, .rests _, fun _ => rfl⟩
    · next hpop =>
      obtain ⟨m, hm, hpopped⟩ := Option.bind_eq_some_iff.1 hpop
      rw [setMachine_eq_setEngine hE]
      exact ⟨_, .sets (.pops hm hpopped) _, fun _ => rfl⟩
  | print =>
    simp only [performOnEngine]
    split
    · exact ⟨_, .rests _, fun _ => rfl⟩
    · next n m' hpop =>
      obtain ⟨m, hm, hpopped⟩ := Option.bind_eq_some_iff.1 hpop
      rw [setMachine_eq_setEngine hE]
      exact ⟨_, .prints (.pops hm hpopped) n, fun _ => rfl⟩
  | host name calls => exact ⟨_, .sets (.hosts name calls) _, fun _ => rfl⟩
  | trigger instruction actions =>
    exact ⟨_, .sets (.triggers instruction actions) _, fun _ => rfl⟩
  | pushTime =>
    simp only [performOnEngine]
    split
    · exact exists_runs_pushInt hE _ _
    · exact ⟨_, .rests _, fun _ => rfl⟩

theorem Runs.rel {R : World → World → Prop} (h : w.Runs e E action s) (refl : R w w)
    (trans : ∀ {w₁ w₂ w₃ : World}, R w₁ w₂ → R w₂ w₃ → R w₁ w₃)
    (print : ∀ w₁ n, R w₁ (w₁.logged (.printed n)))
    (set : ∀ {E' : Engine}, E.Serviced action E' → R w (w.setEngine e E')) : R w s.world := by
  cases h with
  | rests | calls => exact refl
  | sets serviced => exact set serviced
  | prints serviced n => exact trans (set serviced) (print _ n)

theorem aside_serviced {E' : Engine} (hE : w.engine? e = some E) (h : E.Serviced action E') :
    w.Aside ((Action.engine e action).Touches w) (w.setEngine e E') := by
  cases h with
  | loads loaded => exact aside_setEngine hE (Engine.pulse_load loaded)
  | references referenced => exact aside_setEngine hE (Engine.pulse_reference? referenced)
  | unreferences key => exact aside_setEngine hE (E.pulse_unreference key)
  | truncates height => exact aside_setEngine hE (E.pulse_setTop height)
  | hosts name calls => exact aside_setEngine hE (E.pulse_setHost name calls)
  | triggers => exact aside_setEngine hE (E.pulse_setTrigger _)
  | pushes before pushed =>
    obtain ⟨_, rfl⟩ := Machine.push?_eq_some.1 pushed
    exact aside_setEngine hE (Engine.pulse_setMachine before rfl)
  | pops before popped =>
    obtain rfl := Machine.popInt?_eq_some popped
    exact aside_setEngine hE (Engine.pulse_setMachine before rfl)
  | hooks | clears =>
    -- these touch the hook of their engine
    rw [setEngine_eq_modifyEngine]
    refine aside_modifyEngine w e (fun E₁ hE₁ => ?_) fun _ _ ht => absurd rfl ht
    obtain rfl := Option.some.inj (hE.symm.trans hE₁)
    simp

/-- What an engine is asked for goes on aside; only its own hook may be touched by it. -/
theorem within_performOnEngine (hE : w.engine? e = some E) (action : EngineAction Action)
    (k : Pending .reply) :
    (w.performOnEngine e E action k).Within (w.Aside ((Action.engine e action).Touches w)) k := by
  obtain ⟨s, hruns, hs⟩ := exists_runs hE action
  rw [hs]
  exact s.within (lasting_aside w _).robust (hruns.rel (Aside.refl w) Aside.trans
    (fun w₁ _ => aside_logged w₁ rfl) (aside_serviced hE)) k

theorem within_perform_aside (w : World) {action : Action} (hqueue : action.onQueue = false)
    (k : Pending .reply) : (w.perform action k).Within (w.Aside (action.Touches w)) k := by
  cases action with
  | advance ms =>
    rw [perform]
    exact within_deliver (aside_advance w ms) k _
  | setClock ms =>
    rw [perform]
    exact within_deliver (aside_setClock w ms) k _
  | unwind message =>
    exact ⟨Aside.refl w, .refl, fun id h => by simp [perform, World.unwind, Control.payload?] at h⟩
  | alive q => exact within_deliver (Aside.refl w) k _
  | queue q action => cases hqueue
  | engine e action =>
    simp only [perform]
    split
    · exact within_deliver (Aside.refl w) k _
    · next E hE => exact within_performOnEngine hE action k

theorem perform_of_spares (w : World) {action : QueueAction Action} (h : action.spares = true)
    (k : Pending .reply) :
    ∃ reply w', w.perform (.queue q action) k = w'.deliver k reply ∧ w.Beside w' := by
  simp only [perform]
  cases hQ : w.queue? q with
  | none => exact ⟨_, w, rfl, .refl w⟩
  | some Q =>
    cases action with
    | contains | kind | count | isEmpty | ids | current | stats | config | now | describe | messages
    | tagged => exact ⟨_, w, rfl, .refl w⟩
    | notify tag text => exact ⟨_, _, rfl, beside_notify w q tag text⟩
    | clearMessages => exact ⟨_, _, rfl, beside_clearMessages hQ⟩
    | _ => cases h

/-- An action that does not tamper with a queue tells its observer something at most. -/
theorem within_perform_beside (w : World) {action : Action} (htampers : action.tampers = false)
    (k : Pending .reply) : (w.perform action k).Within w.Beside k := by
  cases action with
  | queue q action =>
    have hspares : action.spares = true := by simpa [Action.tampers] using htampers
    obtain ⟨reply, w', hperform, hbeside⟩ := w.perform_of_spares (q := q) hspares k
    rw [hperform]
    exact within_deliver hbeside k reply
  | advance | setClock | unwind | alive | engine =>
    exact (within_perform_aside w rfl k).mono Aside.beside

/-- An action that runs no pass edits the queues, and touches no hook but those it is said to. -/
theorem within_perform (w : World) {action : Action} (hrun : action.run? = none)
    (k : Pending .reply) :
    (w.perform action k).Within (w.Follows (action.Interrupts w) (action.Touches w)) k := by
  cases action with
  | queue q action =>
    simp only [perform]
    split
    · exact within_deliver (Follows.refl w) k _
    · next Q hQ => exact within_performOnQueue hQ hrun k
  | advance | setClock | unwind | alive | engine =>
    exact (within_perform_aside w rfl k).mono Aside.follows

end World

end TaskLoop
