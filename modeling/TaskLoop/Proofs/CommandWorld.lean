import TaskLoop.CommandLine.Report
import TaskLoop.Proofs.Quiescence

namespace TaskLoop

open CommandLine

variable {w : World} {Q Q' : Queue} {Qs : Array (Option Queue)} {id : TaskId} {p : Process}

namespace CommandLine

def interruption : Action := .queue 0 (.interruptAll "" (World.interruptedNotice 0) none)

def hostActions : List Action := [.engine 0 .print, .engine 0 .pushTime, interruption]

def hostTurns? (name : String) : Option (List (HostCall Action)) :=
  (hosts.find? (·.1 == name)).map (·.2)

theorem exists_hostAction {name : String} {turns : List (HostCall Action)}
    (h : hostTurns? name = some turns) :
    ∃ turn action, turns = [turn] ∧ turn.actions = [action] ∧ action ∈ hostActions := by
  obtain ⟨⟨name', turns'⟩, hfind, rfl⟩ := Option.map_eq_some_iff.1 h
  have hm := List.mem_of_find?_eq_some hfind
  simp only [hosts, List.mem_cons, List.not_mem_nil, or_false, Prod.mk.injEq] at hm
  obtain ⟨_, rfl⟩ | ⟨_, rfl⟩ | ⟨_, rfl⟩ := hm <;>
    exact ⟨_, _, rfl, rfl, by simp [hostActions, interruption]⟩

end CommandLine

namespace Engine

def Serves : Engine → Prop
  | .machine E => (∀ name, (Engine.machine E).host? name = hostTurns? name) ∧
      ∀ probe, E.probe = some probe → probe.hook = .cancel 0
  | _ => False

variable {E : Engine}

theorem Serves.count (h : E.Serves) : E.count.Serves := by
  cases E with
  | machine E => exact h
  | pacer | inert => exact h.elim

theorem Serves.setMachine (h : E.Serves) (m : Machine) : (E.setMachine m).Serves := by
  cases E with
  | machine E => exact h
  | pacer | inert => exact h.elim

theorem Serves.setTop (h : E.Serves) (height : Nat) : (E.setTop height).Serves := by
  cases E with
  | machine E => exact h
  | pacer | inert => exact h.elim

theorem Serves.unreference (h : E.Serves) (key : Nat) : (E.unreference key).Serves := by
  cases E with
  | machine E => exact h
  | pacer | inert => exact h.elim

theorem Serves.setProbe (h : E.Serves) {probe : Option Probe}
    (hprobe : ∀ probe', probe = some probe' → probe'.hook = .cancel 0) :
    (E.setProbe probe).Serves := by
  cases E with
  | machine E => exact ⟨h.1, hprobe⟩
  | pacer | inert => exact h.elim

theorem Serves.clearHook (h : E.Serves) : E.clearHook.Serves := by
  cases E with
  | machine E => exact ⟨h.1, fun _ hprobe => by cases hprobe⟩
  | pacer | inert => exact h.elim

theorem Serves.setHook (h : E.Serves) (every : Nat) : (E.setHook (.cancel 0) every).Serves := by
  cases E with
  | machine E => exact ⟨h.1, fun _ hprobe => by cases hprobe; rfl⟩
  | pacer | inert => exact h.elim

theorem Serves.setHost (h : E.Serves) {name : String} {calls : List (HostCall Action)}
    (hcalls : hostTurns? name = some calls) : (E.setHost name calls).Serves := by
  cases E with
  | machine E =>
    refine ⟨fun name' => ?_, h.2⟩
    rw [← h.1 name']
    simp only [host?, List.find?_cons]
    by_cases hname : name = name'
    · subst hname
      simp only [beq_self_eq_true, Option.map_some]
      exact (hcalls.symm.trans (h.1 name).symm)
    · have hne : (name == name') = false := beq_eq_false_iff_ne.2 hname
      simp only [hne, List.find?_filter]
      congr 2
      funext entry
      by_cases hentry : entry.1 = name'
      · simp [hentry, Ne.symm hname]
      · simp [hentry]
  | pacer | inert => exact h.elim

end Engine

namespace World

def Serves (w : World) : Prop := ∃ E, w.engine? 0 = some E ∧ E.Serves

structure Attended (Qs : Array (Option Queue)) (w : World) : Prop where
  queues : w.queues = Qs
  serves : w.Serves

theorem Serves.attended (h : w.Serves) : w.Attended w.queues := ⟨rfl, h⟩

theorem Serves.modifyQueue (h : w.Serves) (q : Nat) (f : Queue → Queue) :
    (w.modifyQueue q f).Serves := by
  obtain ⟨E, hE, hserves⟩ := h
  exact ⟨E, hE, hserves⟩

theorem Serves.setQueue (h : w.Serves) (q : Nat) (Q : Queue) : (w.setQueue q Q).Serves := by
  obtain ⟨E, hE, hserves⟩ := h
  exact ⟨E, hE, hserves⟩

theorem Serves.notify (h : w.Serves) (q : Nat) (tag : Tag) (text : String) :
    (w.notify q tag text).Serves := h.modifyQueue q (·.record ⟨tag, text⟩)

theorem Serves.modifyEngine (h : w.Serves) {f : Engine → Engine}
    (hf : ∀ E, E.Serves → (f E).Serves) (e : Nat) : (w.modifyEngine e f).Serves := by
  obtain ⟨E, hE, hserves⟩ := h
  by_cases he : e = 0
  · subst he
    exact ⟨f E, by rw [engine?_modifyEngine, hE]; rfl, hf E hserves⟩
  · exact ⟨E, (engine?_modifyEngine_of_ne w f he).trans hE, hserves⟩

theorem Serves.installHook (h : w.Serves) (e : Nat) : (w.installHook 0 e).Serves := by
  unfold World.installHook
  split
  · exact h
  · exact h.modifyEngine (fun _ hE => hE.setHook _) e

theorem Serves.interruptTask (h : w.Serves) (id : TaskId) : (w.interruptTask 0 id).2.Serves := by
  obtain ⟨hr, _⟩ | ⟨_, _, _, _, ⟨t, _, hr⟩ | ⟨_, hr⟩⟩ := w.interruptTask_cases 0 id
  · rw [hr]
    exact h
  · rw [hr]
    exact (h.modifyQueue 0 _).installHook _
  · rw [hr]
    exact h.modifyQueue 0 _

theorem Serves.foldl (h : w.Serves) (ids : List TaskId) (n : Nat) :
    (ids.foldl (fun (n, w) id =>
      let (delivered, w) := w.interruptTask 0 id
      (if delivered then n + 1 else n, w)) (n, w)).2.Serves := by
  induction ids generalizing w n with
  | nil => exact h
  | cons id ids ih => exact ih (h.interruptTask id) _

theorem Serves.push (h : w.Serves) (task : Task) : (w.push 0 task).2.Serves := by
  unfold World.push
  split
  · exact h
  · exact h.setQueue 0 _

theorem Serves.interruptAll (h : w.Serves) (watcher : WatcherTask) :
    (w.interruptAll 0 watcher).2.Serves := by
  have htold : ∀ ids, (w.interruptTasks 0 ids).2.Serves := fun ids => Serves.foldl h ids 0
  exact ((htold _).modifyQueue 0 _).push _

namespace Attended

variable (h : w.Attended Qs)

include h

theorem queue? (q : Nat) : w.queue? q = (Qs[q]?).join := by rw [World.queue?, h.queues]

theorem modifyEngine {f : Engine → Engine} (hf : ∀ E, E.Serves → (f E).Serves) (e : Nat) :
    (w.modifyEngine e f).Attended Qs := ⟨h.queues, h.serves.modifyEngine hf e⟩

theorem logged (event : Event) : (w.logged event).Attended Qs := ⟨h.queues, h.serves⟩

theorem atTime (now : UInt64) : (w.setClock now).Attended Qs := ⟨h.queues, h.serves⟩

theorem setMachine (m : Machine) : (w.setMachine 0 m).Attended Qs :=
  h.modifyEngine (fun _ hE => hE.setMachine m) 0

theorem modifyMachine (f : Machine → Machine) : (w.modifyMachine 0 f).Attended Qs := by
  unfold World.modifyMachine
  split
  · exact h
  · exact h.setMachine _

theorem installHook (e : Nat) : (w.installHook 0 e).Attended Qs := by
  refine ⟨?_, h.serves.installHook e⟩
  unfold World.installHook
  split <;> exact h.queues

theorem handle (handler : Handler) (message : String) (frames : List TraceFrame) :
    (w.handle handler message frames).2.Attended Qs := by
  cases handler with
  | traceback => exact h
  | recording => exact h.logged _

theorem tickHook : (w.tickHook 0).2.Attended Qs ∧
    ∀ hook, (w.tickHook 0).1 = some hook → hook = .cancel 0 := by
  obtain ⟨E, hE, hserves⟩ := h.serves
  unfold World.tickHook
  split
  · exact ⟨h, fun _ hnone => by cases hnone⟩
  · next probe hprobe =>
    have hcancel : probe.hook = .cancel 0 := by
      rw [hE] at hprobe
      cases E with
      | machine E => exact hserves.2 probe hprobe
      | pacer | inert => exact hserves.elim
    have htick : probe.tick.2.hook = .cancel 0 := by
      unfold Probe.tick
      split <;> exact hcancel
    dsimp only
    split
    · refine ⟨h.modifyEngine (fun _ hE => hE.setProbe fun _ hsome => ?_) 0, fun _ hsome => ?_⟩
      · cases hsome
        rw [htick]
        rfl
      · cases hsome
        exact htick
    · refine ⟨h.modifyEngine (fun _ hE => hE.setProbe fun _ hsome => ?_) 0,
        fun _ hnone => by cases hnone⟩
      cases hsome
      exact htick

theorem releaseScript (t : ScriptTask) : (w.releaseScript t).Attended Qs := by
  unfold World.releaseScript
  dsimp only
  split <;> split
  · exact (h.modifyEngine (fun _ hE => hE.clearHook) _).modifyEngine (fun _ hE => hE.unreference _) _
  · exact h.modifyEngine (fun _ hE => hE.unreference _) _
  · exact h.modifyEngine (fun _ hE => hE.clearHook) _
  · exact h

theorem restored (id : TaskId) (t : ScriptTask) (top : Nat) :
    ∀ {w₁ : World}, w₁ = w.modifyEngine t.engine (·.setTop top) →
      ∀ {w₂ : World}, w₂ = (if w₁.scriptArmed 0 id then w₁.modifyEngine t.engine (·.clearHook)
        else w₁) →
      (if t.release then w₂.modifyEngine t.engine (·.unreference t.key) else w₂).Attended Qs := by
  rintro w₁ rfl w₂ rfl
  have htop := h.modifyEngine (fun _ hE => hE.setTop top) t.engine
  split <;> split
  · exact (htop.modifyEngine (fun _ hE => hE.clearHook) _).modifyEngine
      (fun _ hE => hE.unreference _) _
  · exact htop.modifyEngine (fun _ hE => hE.unreference _) _
  · exact htop.modifyEngine (fun _ hE => hE.clearHook) _
  · exact htop

end Attended

end World

inductive Control.Resumed (k : Pending .call) : Control → Prop
  | runs (call : MachineCall) : Resumed k (.deliver () (.cons (.machine 0 call) k))
  | ends (result : Except CallError Unit) : Resumed k (.deliver result k)

inductive Control.Executed (k : Pending .call) : Control → Prop
  | resumed {control : Control} (resumed : control.Resumed k) : Executed k control
  | performs (call : MachineCall) (name : String) (turn : HostCall Action) {action : Action}
      (mem : action ∈ hostActions) : Executed k (.perform action
        (.cons (.routine action [] none) (.cons (.host 0 call name turn) k)))

/-- What happens while the script calls its program: instructions are executed and host functions
answer, or the hook of the queue has cancelled the script. -/
inductive Control.Calls (id : TaskId) (k : Pending .call) : Control → Prop
  | executed {control : Control} (executed : control.Executed k) : Calls id k control
  | counted (call : MachineCall) (op : Op) : Calls id k (.deliver () (.cons (.counted 0 call op) k))
  | answers (call : MachineCall) (name : String) (turn : HostCall Action) (action : Action)
      (reply : Reply) : Calls id k (.deliver reply
        (.cons (.routine action [] none) (.cons (.host 0 call name turn) k)))
  | hosted (call : MachineCall) (name : String) (turn : HostCall Action)
      (complaint : Option String) :
      Calls id k (.deliver complaint (.cons (.host 0 call name turn) k))
  | cancels (call : MachineCall) (op : Op) :
      Calls id k (.unwind (.cancelled id) (.cons (.counted 0 call op) k))
  | leaves : Calls id k (.unwind (.cancelled id) k)

structure Process.Resumes (Qs : Array (Option Queue)) (k : Pending .call) (p : Process) : Prop where
  world : p.world.Attended Qs
  control : p.control.Resumed k

structure Process.Executes (Qs : Array (Option Queue)) (k : Pending .call) (p : Process) : Prop where
  world : p.world.Attended Qs
  control : p.control.Executed k

structure Process.Onward (Qs : Array (Option Queue)) (id : TaskId) (k : Pending .call)
    (p : Process) : Prop where
  world : p.world.Attended Qs
  control : p.control.Calls id k

theorem Process.Resumes.executes {k : Pending .call} (h : p.Resumes Qs k) : p.Executes Qs k :=
  ⟨h.world, .resumed h.control⟩

theorem Process.Executes.onward {k : Pending .call} (h : p.Executes Qs k) : p.Onward Qs id k :=
  ⟨h.world, .executed h.control⟩

namespace World.Attended

variable {k : Pending .call} {call : MachineCall} (h : w.Attended Qs)

include h

theorem leaveMachine (call : MachineCall) (result : Except CallError Unit) :
    (w.leaveMachine 0 call result k).Resumes Qs k := ⟨h.modifyMachine _, .ends result⟩

theorem failMachine (call : MachineCall) (fault : Fault) :
    (w.failMachine 0 call fault k).Resumes Qs k := by
  cases fault with
  | memory => exact h.leaveMachine call _
  | runtime fault => exact (h.handle _ _ _).leaveMachine call _

theorem callHost (call : MachineCall) (name : String) :
    (w.callHost 0 call name k).Executes Qs k := by
  obtain ⟨E, hE, hserves⟩ := h.serves
  have hhost : w.host? 0 name = hostTurns? name := by
    rw [World.host?, hE]
    cases E with
    | machine E => exact hserves.1 name
    | pacer | inert => exact hserves.elim
  unfold World.callHost
  rw [hhost]
  cases hturns : hostTurns? name with
  | none => exact (h.failMachine call _).executes
  | some turns =>
    obtain ⟨turn, action, rfl, hactions, hmem⟩ := exists_hostAction hturns
    dsimp only [nextTurn]
    rw [World.callBack, hactions]
    exact ⟨(h.logged _).modifyEngine (fun _ hE => hE.setHost hturns) 0,
      .performs call name turn hmem⟩

theorem executeOp (call : MachineCall) (op : Op) : (w.executeOp 0 call op k).Executes Qs k := by
  unfold World.executeOp
  split
  · exact ⟨h, .resumed (.ends _)⟩
  · split
    · exact ⟨h.setMachine _, .resumed (.runs _)⟩
    · exact ((h.setMachine _).failMachine call _).executes
    · exact h.callHost call _

theorem runMachine (hcancelled : ∀ id', (w.queue? 0 >>= (·.cancelled?)) = some id' → id' = id)
    (call : MachineCall) : (w.runMachine 0 call k).Onward Qs id k := by
  unfold World.runMachine
  split
  · exact (h.leaveMachine call _).executes.onward
  · next op frames _ =>
    have htick := (h.modifyEngine (fun _ hE => hE.count) 0).tickHook
    dsimp only
    split
    · next heq =>
      rw [World.countInstruction] at heq
      rw [heq] at htick
      exact (htick.1.executeOp _ op).onward
    · next hook w₁ heq =>
      rw [World.countInstruction] at heq
      rw [heq] at htick
      obtain rfl := htick.2 hook rfl
      have hqueue : w₁.queue? 0 = w.queue? 0 := by rw [htick.1.queue?, h.queue?]
      unfold World.fireHook
      dsimp only
      rw [hqueue]
      split
      · exact ⟨htick.1, .counted _ op⟩
      · next id' hid' =>
        obtain rfl := hcancelled id' hid'
        exact ⟨htick.1, .cancels _ op⟩

theorem hostReturned (call : MachineCall) (name : String) (turn : HostCall Action)
    (complaint : Option String) :
    (w.hostReturned 0 call name turn complaint k).Resumes Qs k := by
  unfold World.hostReturned
  split
  · exact ⟨h, .runs call⟩
  · exact h.failMachine call _

theorem perform {action : Action} (hm : action ∈ hostActions) (hne : action ≠ interruption)
    (k : Pending .reply) :
    ∃ (w₁ : World) (reply : Reply), w.perform action k = w₁.deliver k reply ∧ w₁.Attended Qs := by
  obtain ⟨E, hE, _⟩ := h.serves
  simp only [hostActions, List.mem_cons, List.not_mem_nil, or_false] at hm
  obtain rfl | rfl | rfl := hm
  · simp only [World.perform, hE, performOnEngine]
    split
    · exact ⟨_, _, rfl, h⟩
    · exact ⟨_, _, rfl, (h.setMachine _).logged _⟩
  · simp only [World.perform, hE, performOnEngine, pushInt]
    split
    · split
      · exact ⟨_, _, rfl, h⟩
      · exact ⟨_, _, rfl, h.setMachine _⟩
    · exact ⟨_, _, rfl, h⟩
  · exact absurd rfl hne

theorem callProtected (key : Nat) (handler : Handler) :
    (w.callProtected 0 key handler k).Resumes Qs k := by
  obtain ⟨E, hE, hserves⟩ := h.serves
  unfold World.callProtected
  rw [hE]
  cases E with
  | machine E =>
    dsimp only
    split
    · exact ⟨h, .runs _⟩
    · exact ⟨h.handle _ _ _, .ends _⟩
  | pacer | inert => exact hserves.elim

end World.Attended

/-- The tasks of a run: scripts on the machine, watchdogs, and watchers that say when everything has
been interrupted. -/
inductive Task.Member : Task → Prop
  | script {t : ScriptTask} (engine : t.engine = 0) : Member (.script t)
  | watchdog (deadline : UInt64) (alive : Bool) :
      Member (.idle { name := "", body := .watchdog deadline, alive, onDrop := none })
  | watcher {callback : Option QuietCallback}
      (notice : ∀ c, callback = some c → c = ⟨World.interruptedNotice 0, none⟩) :
      Member (.watcher ⟨"", callback⟩)

def Task.flag? : Task → Option Bool
  | .script t => some t.armed
  | _ => none

theorem Task.Member.told {task : Task} (h : task.Member) : task.told.Member := by
  cases h with
  | script engine => exact .script engine
  | watchdog deadline => exact .watchdog deadline false
  | watcher notice => exact .watcher notice

theorem Task.Member.destroy {task : Task} (h : task.Member) (hw : w.Serves) (k : Pending .done) :
    ∃ w₁ : World, w.destroy task k = w₁.deliver k () ∧ w₁.Attended w.queues := by
  cases h with
  | @script t engine =>
    refine ⟨_, rfl, ?_⟩
    split
    · exact hw.attended
    · exact hw.attended.releaseScript t
  | watchdog deadline alive => exact ⟨w, rfl, hw.attended⟩
  | @watcher callback notice =>
    cases callback with
    | none => exact ⟨w, rfl, hw.attended⟩
    | some c =>
      obtain rfl := notice c rfl
      exact ⟨w, rfl, hw.attended⟩

/-- What the place of a task in a run depends on. -/
inductive Badge where
  | script (armed : Bool)
  | watchdog (alive : Bool)
  | watcher

namespace Badge

def flag? : Badge → Option Bool
  | script armed => some armed
  | _ => none

def told : Badge → Badge
  | script _ => script true
  | watchdog _ => watchdog false
  | watcher => watcher

/-- Scripts come first, and watchers last. Nothing stands behind a watchdog that has not been told to
finish. -/
def Before : Badge → Badge → Prop
  | script _, _ => True
  | watchdog alive, b => alive = false ∧ b = watcher
  | watcher, b => b = watcher

theorem flag?_told (b : Badge) : b.told.flag? = b.flag?.map fun _ => true := by cases b <;> rfl

theorem Before.isSome_flag? {a b : Badge} (h : a.Before b) (hb : b.flag?.isSome) :
    a.flag?.isSome := by
  cases a with
  | script => rfl
  | watchdog =>
    obtain ⟨_, rfl⟩ := h
    cases hb
  | watcher =>
    obtain rfl := h
    cases hb

theorem Before.told {a b : Badge} (h : a.Before b) : a.told.Before b.told := by
  cases a with
  | script => trivial
  | watchdog =>
    obtain ⟨_, rfl⟩ := h
    exact ⟨rfl, rfl⟩
  | watcher =>
    obtain rfl := h
    rfl

theorem told_before_watcher (a : Badge) : a.told.Before watcher := by
  cases a with
  | script => trivial
  | watchdog => exact ⟨rfl, rfl⟩
  | watcher => rfl

end Badge

def Task.badge : Task → Badge
  | .script t => .script t.armed
  | .idle t => .watchdog t.alive
  | .timer t => .watchdog t.alive
  | .watcher _ => .watcher

theorem Task.flag?_eq (task : Task) : task.flag? = task.badge.flag? := by cases task <;> rfl

theorem Task.badge_told (task : Task) : task.told.badge = task.badge.told := by cases task <;> rfl

namespace Queue

def Members (Q : Queue) : Prop := ∀ id task, Q.get? id = some task → task.Member

def flag? (Q : Queue) (id : TaskId) : Option Bool := Q.get? id >>= Task.flag?

def Scripted (Q : Queue) : Prop := ∃ id, (Q.flag? id).isSome

def badge? (Q : Queue) (id : TaskId) : Option Badge := (Q.get? id).map Task.badge

theorem flag?_eq (Q : Queue) (id : TaskId) : Q.flag? id = (Q.badge? id).bind Badge.flag? := by
  rw [flag?, badge?]
  cases Q.get? id with
  | none => rfl
  | some task => exact task.flag?_eq

structure Same (Q Q' : Queue) : Prop where
  order : Q'.order = Q.order
  badges : ∀ id, Q'.badge? id = Q.badge? id
  members : Q.Members → Q'.Members

structure Alarms (Q Q' : Queue) : Prop where
  grows : ∃ new, Q'.order = Q.order ++ [new] ∧ Q.badge? new = none ∧
    ∀ id, Q'.badge? id = if id = new then some .watcher else (Q.badge? id).map Badge.told
  members : Q.Members → Q'.Members

structure Loses (id : TaskId) (Q Q' : Queue) : Prop where
  order : Q'.order = Q.order.filter (· != id)
  badges : ∀ id', Q'.badge? id' = if id' = id then none else Q.badge? id'
  members : Q.Members → Q'.Members

theorem Same.flags (h : Q.Same Q') (id : TaskId) : Q'.flag? id = Q.flag? id := by
  rw [flag?_eq, h.badges, ← flag?_eq]

theorem Alarms.flags (h : Q.Alarms Q') (id : TaskId) :
    Q'.flag? id = (Q.flag? id).map fun _ => true := by
  obtain ⟨new, _, hnew, hbadges⟩ := h.grows
  rw [flag?_eq, hbadges, flag?_eq]
  split
  · next hid =>
    rw [hid, hnew]
    rfl
  · cases Q.badge? id with
    | none => rfl
    | some badge => exact badge.flag?_told

theorem Loses.flags (h : Q.Loses id Q') (id' : TaskId) :
    Q'.flag? id' = if id' = id then none else Q.flag? id' := by
  rw [flag?_eq, h.badges, flag?_eq]
  split <;> rfl

theorem Same.refl (Q : Queue) : Q.Same Q := ⟨rfl, fun _ => rfl, fun h => h⟩

theorem Same.trans {Q₁ Q₂ Q₃ : Queue} (h : Q₁.Same Q₂) (h' : Q₂.Same Q₃) : Q₁.Same Q₃ :=
  ⟨h'.order.trans h.order, fun id => (h'.badges id).trans (h.badges id),
    fun hm => h'.members (h.members hm)⟩

theorem Same.alarms {Q₁ Q₂ Q₃ : Queue} (h : Q₁.Same Q₂) (h' : Q₂.Alarms Q₃) : Q₁.Alarms Q₃ := by
  obtain ⟨new, horder, hnew, hbadges⟩ := h'.grows
  refine ⟨⟨new, by rw [horder, h.order], by rw [← h.badges, hnew], fun id => ?_⟩,
    fun hm => h'.members (h.members hm)⟩
  rw [hbadges, h.badges]

theorem same_of_tasks (horder : Q'.order = Q.order) (htasks : Q'.tasks = Q.tasks) : Q.Same Q' := by
  have hget : ∀ id, Q'.get? id = Q.get? id := fun id => by rw [get?, htasks]; rfl
  refine ⟨horder, fun id => by rw [badge?, hget]; rfl, fun hm id task hg => hm id task ?_⟩
  rw [← hget, hg]

theorem same_modify {task : Task} (task' : Task) (hg : Q.get? id = some task)
    (hbadge : task'.badge = task.badge) (hmember : task.Member → task'.Member) :
    Q.Same (Q.modify id fun _ => task') := by
  refine ⟨rfl, fun id' => ?_, fun hm id' task₁ hg₁ => ?_⟩
  · rw [badge?, badge?, get?_modify]
    split
    · next hid =>
      subst hid
      rw [hg]
      exact congrArg some hbadge
    · rfl
  · rw [get?_modify] at hg₁
    split at hg₁
    · rw [hg] at hg₁
      cases hg₁
      exact hmember (hm id task hg)
    · exact hm id' task₁ hg₁

theorem WellFormed.get?_eq_none (hQ : Q.WellFormed) (h : id ∉ Q.order) : Q.get? id = none := by
  cases hg : Q.get? id with
  | none => rfl
  | some task => exact absurd ((hQ.order id).2 ⟨task, hg⟩) h

theorem Told.alarms {watcher : WatcherTask} {new : TaskId} (h : Q.Told watcher Q' new)
    (hQ : Q.WellFormed) (hQ' : Q'.WellFormed) (hmember : (Task.watcher watcher).Member) :
    Q.Alarms Q' := by
  have hnew : new ∉ Q.order := fun hm => by
    have hnodup := hQ'.nodup
    rw [h.order, List.nodup_append] at hnodup
    exact hnodup.2.2 new hm new (List.mem_singleton.2 rfl) rfl
  have hget : ∀ id', id' ∉ Q.order → id' ≠ new → Q'.get? id' = none := fun id' hm hne => by
    refine hQ'.get?_eq_none fun hm' => ?_
    rw [h.order, List.mem_append, List.mem_singleton] at hm'
    exact hm'.elim hm hne
  refine ⟨⟨new, h.order, by rw [badge?, hQ.get?_eq_none hnew]; rfl, fun id' => ?_⟩,
    fun hm id' task hg => ?_⟩
  · rw [badge?]
    split
    · next hid =>
      rw [hid, h.watcher]
      rfl
    · next hne =>
      by_cases hid : id' ∈ Q.order
      · rw [badge?, h.records id' hid]
        cases Q.get? id' with
        | none => rfl
        | some task => exact congrArg some task.badge_told
      · rw [badge?, hQ.get?_eq_none hid, hget id' hid hne]
        rfl
  · by_cases hid : id' ∈ Q.order
    · rw [h.records id' hid] at hg
      obtain ⟨task₀, hg₀, rfl⟩ := Option.map_eq_some_iff.1 hg
      exact (hm id' task₀ hg₀).told
    · by_cases hne : id' = new
      · rw [hne, h.watcher] at hg
        cases hg
        exact hmember
      · rw [hget id' hid hne] at hg
        cases hg

theorem Keeps.loses {kept rest : List TaskId} (h : Q.Keeps (kept ++ rest) Q') (hQ : Q.WellFormed)
    (hQ' : Q'.WellFormed) (horder : Q.order = kept ++ id :: rest) : Q.Loses id Q' := by
  have hleft : ∀ id', id' ∈ kept ++ rest ↔ id' ∈ Q.order ∧ id' ≠ id := fun id' => by
    rw [← filter_order hQ.nodup horder, List.mem_filter, bne_iff_ne]
  refine ⟨by rw [h.order, filter_order hQ.nodup horder], fun id' => ?_, fun hm id' task hg => ?_⟩
  · by_cases hm : id' ∈ kept ++ rest
    · rw [if_neg ((hleft id').1 hm).2, badge?, h.records id' hm]
      rfl
    · have hnone : Q'.get? id' = none := hQ'.get?_eq_none (by rw [h.order]; exact hm)
      rw [badge?, hnone]
      split
      · rfl
      · next hne =>
        rw [badge?, hQ.get?_eq_none fun hid => hm ((hleft id').2 ⟨hid, hne⟩)]
  · by_cases hmem : id' ∈ kept ++ rest
    · exact hm id' task ((h.records id' hmem).symm.trans hg)
    · rw [hQ'.get?_eq_none (by rw [h.order]; exact hmem)] at hg
      cases hg

end Queue

end TaskLoop
