import TaskLoop.Proofs.Custody
import TaskLoop.Proofs.Machines

namespace TaskLoop

variable {a b : Hole} {w : World} {q e : Nat} {id : TaskId} {p : Process}

def Task.farewell? (task : Task) : Option String :=
  task.callback?.bind fun callback => callback.2.map fun _ => callback.1

theorem Task.farewell?_eq_some {task : Task} {name : String} :
    task.farewell? = some name ↔ ∃ actions, task.callback? = some (name, some actions) := by
  constructor
  · intro h
    obtain ⟨⟨name', onDrop⟩, hcallback, h⟩ := Option.bind_eq_some_iff.1 h
    obtain ⟨actions, rfl, rfl⟩ := Option.map_eq_some_iff.1 h
    exact ⟨actions, hcallback⟩
  · rintro ⟨actions, hcallback⟩
    rw [farewell?, hcallback]
    rfl

namespace World

def dropLog (w : World) : List String := w.log.filterMap Event.dropped?

theorem dropLog_logged (event : Event) (h : event.dropped? = none) (w : World) :
    (w.logged event).dropLog = w.dropLog := List.filterMap_cons_none h

theorem dropLog_of_log {w' : World} (h : w'.log = w.log) : w'.dropLog = w.dropLog :=
  congrArg (List.filterMap Event.dropped?) h

theorem dropLog_callBack (w : World) (actions : List Action) (k : Pending .routine) :
    (w.callBack actions k).world.dropLog = w.dropLog := by rw [world_callBack]

theorem robust_dropLog (names : List String) (T : Nat → Prop) :
    Robust T fun w => w.dropLog = names := by
  intro w w' h chore
  refine Eq.trans ?_ h
  cases chore with
  | log _ kept => exact dropLog_logged _ kept w
  | machine | engine | count => rfl
  | tick => exact dropLog_of_log (log_tickHook w _)

theorem dropLog_named (w : World) (name : String) (q : Nat) (id : TaskId) :
    (w.named name q id).dropLog = w.dropLog := by
  unfold named
  split <;> rfl

theorem dropLog_notify (w : World) (q : Nat) (tag : Tag) (text : String) :
    (w.notify q tag text).dropLog = w.dropLog :=
  dropLog_logged _ rfl (w.modifyQueue q _)

theorem dropLog_installHook (w : World) (q e : Nat) : (w.installHook q e).dropLog = w.dropLog := by
  unfold installHook
  split <;> rfl

theorem dropLog_loadScript {source : List UInt8} {key : Nat} {w' : World}
    (h : w.loadScript q e source = .ok (key, w')) : w'.dropLog = w.dropLog := by
  obtain ⟨E, E₁, E₂, _, _, _, rfl⟩ := loadScript_eq_ok h
  rfl

theorem Grants.dropLog {E : Prop} {w' : World} (h : w.Grants E q w') : w'.dropLog = w.dropLog := by
  induction h with
  | refl => rfl
  | @tail w₁ _ _ grant ih =>
    refine Eq.trans ?_ ih
    cases grant with
    | queue => rfl
    | report => exact dropLog_logged _ rfl w₁
    | name name id => exact dropLog_named w₁ name q id
    | hook e => exact dropLog_installHook w₁ q e
    | load loaded => exact dropLog_loadScript loaded

theorem dropLog_stepTask (w : World) (q : Nat) (id : TaskId) (task : Task) (k : Pending .verdict) :
    (w.stepTask q id task k).world.dropLog = w.dropLog := by
  have hallows : w.Allows (fun w₁ w₂ => w₂.dropLog = w₁.dropLog) q id task :=
    { refl := rfl
      trans := fun h h' => h'.trans h
      log := fun w₁ event hturn => by
        refine dropLog_logged event ?_ w₁
        cases event <;> first | rfl | cases hturn
      rewrite := fun _ _ _ _ => rfl
      hook := fun w₁ t _ _ => dropLog_installHook w₁ q t.engine
      alarm := fun _ => (grants_interruptAll (E := False) w q rfl).dropLog }
  exact (hallows.stepping (robust_dropLog _ fun _ => True) k).world

theorem Walks.dropLog {k : Pending a} (h : w.Walks True k p) : p.world.dropLog = w.dropLog := by
  induction h with
  | rests noted =>
    obtain rfl | ⟨_, _, _, rfl⟩ := noted
    · rfl
    · rfl
  | enters => exact dropLog_stepTask _ _ _ _ _
  | awaited _ _ ih => exact ih

theorem dropLog_timerFired (w : World) (q : Nat) (id : TaskId) (k : Pending .verdict) :
    (w.timerFired q id k).world.dropLog = w.dropLog := by
  obtain ⟨w', verdict, heq, rfl | ⟨Q, t, deadline, _, _, rfl⟩⟩ := timerFired_eq w q id k
  · rw [heq]
    rfl
  · rw [heq]
    rfl

theorem dropLog_scriptReturned (w : World) (q : Nat) (id : TaskId) (t : ScriptTask) (base : Nat)
    (result : Except CallError Unit) (k : Pending .verdict) :
    (w.scriptReturned q id t base result k).world.dropLog = w.dropLog := by
  have hif : ∀ (c : Prop) [Decidable c] (w : World) (f : Engine → Engine),
      (if c then w.modifyEngine t.engine f else w).dropLog = w.dropLog := fun c _ w f => by
    split <;> rfl
  cases result with
  | ok => exact (hif _ _ _).trans (hif _ _ _)
  | error e => exact (hif _ _ _).trans ((hif _ _ _).trans (dropLog_notify w q _ _))

theorem dropLog_performOnEngine {E : Engine} (hE : w.engine? e = some E)
    (action : EngineAction Action) (k : Pending .reply) :
    (w.performOnEngine e E action k).world.dropLog = w.dropLog := by
  obtain ⟨s, hruns, hs⟩ := exists_runs hE action
  rw [hs]
  have hworld : s.world.dropLog = w.dropLog :=
    hruns.rel (R := fun w₁ w₂ => w₂.dropLog = w₁.dropLog) rfl (fun h h' => h'.trans h)
      (fun w₁ _ => dropLog_logged _ rfl w₁) fun _ => rfl
  exact (s.within (robust_dropLog _ fun _ => True) hworld k).world

theorem dropLog_destroyCallback (w : World) (name : String) (onDrop : Option (List Action))
    (k : Pending .done) : (w.destroyCallback name onDrop k).world.dropLog =
      (onDrop.map fun _ => name).toList ++ w.dropLog := by
  cases onDrop with
  | none => rfl
  | some actions => exact dropLog_callBack _ _ _

theorem dropLog_releaseScript (w : World) (t : ScriptTask) :
    (w.releaseScript t).dropLog = w.dropLog := by
  unfold releaseScript
  dsimp only
  split <;> split <;> rfl

theorem dropLog_destroy (w : World) (task : Task) (k : Pending .done) :
    (w.destroy task k).world.dropLog = task.farewell?.toList ++ w.dropLog := by
  cases hcallback : task.callback? with
  | some callback =>
    rw [destroy_eq hcallback, dropLog_destroyCallback, Task.farewell?, hcallback]
    rfl
  | none =>
    rw [Task.farewell?, hcallback]
    cases task with
    | idle | timer => cases hcallback
    | script t =>
      rw [destroy]
      split
      · rfl
      · exact dropLog_releaseScript w t
    | watcher t => simp only [destroy, Option.map_eq_none_iff.1 hcallback]; rfl

theorem dropLog_at (w : World) (now : UInt64) : { w with now }.dropLog = w.dropLog := rfl

theorem dropLog_advance (w : World) (ms : UInt64) : (w.advance ms).dropLog = w.dropLog := by
  rw [advance, dropLog_at]

theorem dropLog_setClock (w : World) (ms : UInt64) : (w.setClock ms).dropLog = w.dropLog := by
  rw [setClock, dropLog_at]

theorem dropLog_perform {action : Action} (w : World) (hremoved : action.removed? = none)
    (k : Pending .reply) : (w.perform action k).world.dropLog = w.dropLog := by
  cases hrun : action.run? with
  | some q => exact (walks_perform hrun w k).dropLog
  | none =>
    cases action with
    | queue q action =>
      simp only [perform]
      split
      · rfl
      · next Q hQ => exact (within_request hQ hrun hremoved k).world.dropLog
    | engine e action =>
      simp only [perform]
      split
      · rfl
      · next hE => exact dropLog_performOnEngine hE action k
    | advance ms => rw [perform]; exact dropLog_advance w ms
    | setClock ms => rw [perform]; exact dropLog_setClock w ms
    | unwind | alive => rfl

theorem dropLog_begin (w : World) (command : Command) : (w.begin command).world.dropLog = [] :=
  begin_induction (motive := fun p => p.world.dropLog = []) (fun _ => rfl) rfl (fun _ _ _ => rfl) command

end World

namespace Process

def Sheds (p : Process) (name : String) (actions : List Action) : Prop :=
  (∃ q id, p.Destroys q id name (some actions)) ∨
    ∃ task tasks k, p.control = .deliver () (.cons (.sweep (task :: tasks)) k) ∧
      task.callback? = some (name, some actions)

def Truthful (p : Process) : Prop :=
  p.step.world.dropLog = p.world.dropLog ∨
    ∃ name actions, p.step.world.dropLog = name :: p.world.dropLog ∧ p.Sheds name actions

theorem truthful_destroy {task : Task} {k : Pending .done} (hstep : p.step = w.destroy task k)
    (hlog : w.dropLog = p.world.dropLog)
    (hdies : ∀ name actions, task.callback? = some (name, some actions) → p.Sheds name actions) :
    p.Truthful := by
  have hdestroy := w.dropLog_destroy task k
  rw [← hstep, hlog] at hdestroy
  cases hname : task.farewell? with
  | none => rw [hname] at hdestroy; exact .inl hdestroy
  | some name =>
    rw [hname] at hdestroy
    obtain ⟨actions, hcallback⟩ := Task.farewell?_eq_some.1 hname
    exact .inr ⟨name, actions, hdestroy, hdies name actions hcallback⟩

/-- At the end of a turn the record of a task is destroyed that is done, or that was removed. -/
theorem Sound.truthful_ends (h : p.Sound) (hends : p.Ends q id) : p.Truthful := by
  obtain ⟨Q, hQ, _⟩ := h.ready.running hends.mem_turns
  cases hheld : Q.held with
  | some task =>
    obtain ⟨k, hstep⟩ := h.step_of_ends hends hQ hheld
    exact truthful_destroy hstep rfl fun name actions howns =>
      .inl ⟨q, id, .held hends hQ hheld howns⟩
  | none =>
    obtain ⟨walk, k, ⟨verdict, hp⟩ | ⟨payload, hp⟩⟩ := hends
    · have hstep : p.step = p.world.endTurn q id walk verdict k := by
        rw [hp]
        exact step_deliver p.world verdict (.turn q id walk) k
      by_cases hdone : ∃ task, verdict = .done ∧ Q.get? id = some task
      · obtain ⟨task, rfl, hg⟩ := hdone
        obtain ⟨left, _, heq⟩ := World.endTurn_completes hQ hg walk k
        refine truthful_destroy (hstep.trans heq) rfl fun name actions howns => .inl ⟨q, id, ?_⟩
        exact .completed ⟨walk, k, hp⟩ (World.task?_eq_some.2 ⟨Q, hQ, hg⟩) howns
      · have hgone : verdict = .done → Q.get? id = none := fun hv =>
          Option.eq_none_iff_forall_ne_some.2 fun task hg => hdone ⟨task, hv, hg⟩
        left
        rw [hstep, World.endTurn_leaves hQ hgone hheld]
        rfl
    · left
      rw [hp, World.unwind, step_unwind, Activation.unwind, World.abandonTurn, hQ]
      simp only [hheld]
      rfl

theorem Sound.truthful_rang {name : String} {onDrop : Option (List Action)} (h : p.Sound)
    (hrang : p.Rang q id name onDrop) : p.Truthful := by
  obtain ⟨walk, f, k, _, _, hstep⟩ := h.step_of_rang hrang
  have hlog := p.world.dropLog_destroyCallback name onDrop (.cons f (.cons (.turn q id walk) k))
  rw [← hstep] at hlog
  cases onDrop with
  | none => exact .inl hlog
  | some actions => exact .inr ⟨name, actions, hlog, .inl ⟨q, id, .rung hrang⟩⟩

theorem Sound.truthful_removes (h : p.Sound) (hremoves : p.Removes q id) : p.Truthful := by
  obtain ⟨Q, task, left, k, hQ, taken, _, hstep⟩ := hremoves.step_eq
  by_cases hc : Q.current = some id
  · left
    rw [hstep, World.removeTask_holds taken hc]
    rfl
  · refine truthful_destroy (hstep.trans (World.removeTask_destroys taken hc p.world q k)) rfl
      fun name actions howns => .inl ⟨q, id, .removed hremoves (fun hm => ?_) ?_ howns⟩
    · exact hc ((h.ready.running hm).current hQ)
    · exact World.task?_eq_some.2 ⟨Q, hQ, Queue.get?_of_unlink? taken⟩

theorem Sound.truthful_perform {action : Action} {k : Pending .reply} (h : p.Sound)
    (hcontrol : p.control = .perform action k) : p.Truthful := by
  have hstep : p.step = p.world.perform action k := by rw [Process.step, hcontrol]
  cases hremoved : action.removed? with
  | none =>
    left
    rw [hstep]
    exact p.world.dropLog_perform hremoved k
  | some name =>
    obtain ⟨q, rfl⟩ : ∃ q, action = .queue q (.remove name) := by
      cases action with
      | queue q action =>
        cases action with
        | remove => cases hremoved; exact ⟨q, rfl⟩
        | _ => cases hremoved
      | _ => cases hremoved
    cases ht : p.world.task? q (p.world.resolve name) with
    | some task =>
      exact h.truthful_removes ⟨.queue q (.remove name), k, hcontrol, ⟨task, ht⟩, name, rfl, rfl⟩
    | none =>
      left
      rw [hstep]
      simp only [World.perform]
      split
      · rfl
      · next Q hQ =>
        have hgone := (World.task?_eq hQ (p.world.resolve name)).symm.trans ht
        rw [World.performOnQueue, World.removeTask, Queue.unlink?_eq_none hgone]
        rfl

theorem Sound.truthful_deliver {result : a.Result} {f : Activation a b} {k : Pending b} (h : p.Sound)
    (hcontrol : p.control = .deliver result (.cons f k)) : p.Truthful := by
  have hp : p = p.world.deliver (.cons f k) result := eq_deliver hcontrol
  have hstep : p.step = f.resume result p.world k := by
    rw [hp]
    exact step_deliver p.world result f k
  have hsame : (f.resume result p.world k).world.dropLog = p.world.dropLog → p.Truthful := by
    intro hlog
    rw [← hstep] at hlog
    exact .inl hlog
  have hplain : f.Plain → p.Truthful := fun hf =>
    hsame (hf.within (World.robust_dropLog _ fun _ => True) rfl (fun _ _ => trivial) result k).world
  cases f with
  | routine | unheeded | callReply | doneReply | machine | counted | host | pacer | triggered =>
    exact hplain trivial
  | idle | rested | passReply | runReply | cleanup => exact hsame rfl
  | firing q id => exact hsame (World.dropLog_timerFired _ q id k)
  | quiet name onDrop =>
    obtain ⟨q, id, walk, k', rfl⟩ := Pending.eq_turn k
    exact h.truthful_rang ⟨walk, k', .inl ⟨result, hp⟩⟩
  | script q id t base => exact hsame (World.dropLog_scriptReturned _ q id t base result k)
  | turn q id walk => exact h.truthful_ends ⟨walk, k, .inl ⟨result, hp⟩⟩
  | walk q next walk => exact hsame (World.walks_walkOn _ q next walk k (.inl trivial)).dropLog
  | drain q => exact hsame (World.walks_drainOn _ q k).dropLog
  | forever q =>
    cases result with
    | stopped => exact hsame rfl
    | drained => exact hsame (World.walks_startRun _ q (.cons (.forever q) k)).dropLog
  | sweep rest =>
    cases rest with
    | nil => exact hsame rfl
    | cons task tasks =>
      exact truthful_destroy hstep rfl fun name actions howns =>
        .inr ⟨task, tasks, k, hcontrol, howns⟩

theorem Sound.truthful_unwind {payload : Payload} {f : Activation a b} {k : Pending b} (h : p.Sound)
    (hp : p = p.world.unwind payload (.cons f k)) : p.Truthful := by
  have hstep : p.step = f.unwind payload p.world k := by
    rw [hp]
    exact step_unwind p.world payload f k
  have hsame : (f.unwind payload p.world k).world.dropLog = p.world.dropLog → p.Truthful := by
    intro hlog
    rw [← hstep] at hlog
    exact .inl hlog
  cases f with
  | quiet name onDrop =>
    obtain ⟨q, id, walk, k', rfl⟩ := Pending.eq_turn k
    exact h.truthful_rang ⟨walk, k', .inr ⟨payload, hp⟩⟩
  | script q id t base =>
    refine hsame ?_
    rw [Activation.unwind]
    split
    · exact World.dropLog_scriptReturned _ q id t base _ k
    · rfl
  | turn q id walk => exact h.truthful_ends ⟨walk, k, .inr ⟨payload, hp⟩⟩
  | machine e call | counted e call op | host e call name turn =>
    exact hsame (World.dropLog_of_log (World.log_modifyMachine _ e _))
  | _ => exact hsame rfl

/-- Whatever the log tells of as destroyed is destroyed. -/
theorem Sound.truthful (h : p.Sound) : p.Truthful := by
  cases hcontrol : p.control with
  | perform action k => exact h.truthful_perform hcontrol
  | deliver result k =>
    cases k with
    | outermost =>
      rw [Truthful, eq_deliver hcontrol]
      exact .inl rfl
    | cons f k => exact h.truthful_deliver hcontrol
  | unwind payload k =>
    have hp : p = p.world.unwind payload k := by
      obtain ⟨w, control⟩ := p
      exact congrArg (Process.mk w) hcontrol
    cases k with
    | outermost =>
      rw [Truthful, hp]
      exact .inl rfl
    | cons f k => exact h.truthful_unwind hp
  | answered | escaped | aborted =>
    rw [Truthful, step_of_isOver (by rw [isOver, hcontrol])]
    exact .inl rfl

end Process

end TaskLoop
