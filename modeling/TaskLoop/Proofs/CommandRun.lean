import TaskLoop.Proofs.CommandWorld

namespace TaskLoop

open CommandLine

variable {w : World} {Q Q' : Queue} {id : TaskId} {p : Process} {walk : Walk}

namespace CommandLine

abbrev outer : Pending .run := .cons .runReply .outermost

abbrev inner : Pending .pass := .cons (.drain 0) outer

abbrev notice : Action := .queue 0 (.notify .notice "Interrupted.")

/-- Where a run is: between passes, at its end, between turns of a pass, in a turn whose task calls
its program, notifies or is done, or at the end of a turn whose task is to be stepped again. The
counters say how many transitions are left. -/
inductive Front where
  | rest
  | ending (left : Nat)
  | next (id : Option TaskId)
  | call (id : TaskId)
  | ring (id : TaskId) (left : Nat)
  | turn (id : TaskId)
  | waits (id : TaskId)

def Front.task? : Front → Option TaskId
  | .call id | .ring id _ | .turn id | .waits id => some id
  | .rest | .ending _ | .next _ => none

inductive Front.Step (Q : Queue) : Front → Front → Prop
  | ends : Step Q .rest (.ending 2)
  | closes (left : Nat) : Step Q (.ending (left + 1)) (.ending left)
  | ended : Step Q (.ending 0) (.ending 0)
  | rests (next : Option TaskId) : Step Q (.next next) .rest
  | calls (id : TaskId) : Step Q (.call id) (.call id)
  | returns (id : TaskId) : Step Q (.call id) (.turn id)
  | rings (id : TaskId) (left : Nat) : Step Q (.ring id (left + 1)) (.ring id left)
  | rang (id : TaskId) : Step Q (.ring id 0) (.turn id)
  | passes (id : TaskId) : Step Q (.waits id) (.next (Q.nextAfter? id))

end CommandLine

namespace Control

inductive Rings (k : Pending .verdict) : Nat → Control → Prop
  | notifies :
      Rings k 3 (.perform notice (.cons (.routine notice [] none) (.cons (.quiet "" none) k)))
  | notified (reply : Reply) :
      Rings k 2 (.deliver reply (.cons (.routine notice [] none) (.cons (.quiet "" none) k)))
  | quieted (complaint : Option String) : Rings k 1 (.deliver complaint (.cons (.quiet "" none) k))
  | rested : Rings k 0 (.deliver () (.cons .rested k))

inductive Stage : Front → Control → Prop
  | opens : Stage .rest (.perform (.queue 0 .runOnce) .outermost)
  | passed (n : Nat) : Stage .rest (.deliver n inner)
  | drained (outcome : RunOutcome) : Stage (.ending 2) (.deliver outcome outer)
  | replied (reply : Reply) : Stage (.ending 1) (.deliver reply .outermost)
  | ended (reply : Reply) : Stage (.ending 0) (.answered reply)
  | walks (next : Option TaskId) (walk : Walk) :
      Stage (.next next) (.deliver () (.cons (.walk 0 next walk) inner))
  | calls {id : TaskId} {t : ScriptTask} {top : Nat} {walk : Walk} {control : Control}
      (call : control.Calls id (.cons (.script 0 id t top) (.cons (.turn 0 id walk) inner))) :
      Stage (.call id) control
  | rings {id : TaskId} {walk : Walk} {left : Nat} {control : Control}
      (ring : control.Rings (.cons (.turn 0 id walk) inner) left) : Stage (.ring id left) control
  | done (id : TaskId) (walk : Walk) :
      Stage (.turn id) (.deliver Verdict.done (.cons (.turn 0 id walk) inner))
  | again (id : TaskId) (walk : Walk) :
      Stage (.waits id) (.deliver Verdict.again (.cons (.turn 0 id walk) inner))

theorem Executed.turns {k : Pending .call} {control : Control} (h : control.Executed k) :
    control.turns = k.turns := by
  cases h with
  | resumed resumed => cases resumed <;> rfl
  | performs => rfl

theorem Calls.turns {k : Pending .call} {control : Control} (h : control.Calls id k) :
    control.turns = k.turns := by
  cases h with
  | executed executed => exact executed.turns
  | _ => rfl

theorem Rings.turns {k : Pending .verdict} {left : Nat} {control : Control}
    (h : control.Rings k left) :
    control.turns = k.turns := by
  cases h <;> rfl

theorem Stage.turns {f : Front} {control : Control} (h : control.Stage f) :
    control.turns = f.task?.toList.map fun id => (0, id) := by
  cases h with
  | calls call => exact call.turns
  | rings ring => exact ring.turns
  | _ => rfl

theorem Stage.mem_turns {f : Front} {control : Control} (h : control.Stage f) :
    (0, id) ∈ control.turns ↔ f.task? = some id := by
  rw [h.turns]
  cases f.task? with
  | none => simp
  | some id' => simp [eq_comm]

theorem Stage.ne_aborted {f : Front} {control : Control} (h : control.Stage f) :
    control ≠ .aborted := by
  rintro rfl
  cases h with
  | calls call =>
    obtain ⟨⟨⟨⟩⟩⟩ := call
  | rings ring => cases ring

/-- A run that is over has come to its end. -/
theorem Stage.answered {f : Front} (h : p.control.Stage f) (hover : p.isOver = true) :
    f = .ending 0 ∧ ∃ reply, p.control = .answered reply := by
  have hturns := h.turns
  rw [Process.isOver] at hover
  generalize p.control = control at h hover hturns
  cases h with
  | ended reply => exact ⟨rfl, reply, rfl⟩
  | calls | rings =>
    cases control with
    | perform | deliver | unwind => cases hover
    | answered | escaped | aborted => cases hturns
  | _ => cases hover

end Control

namespace Queue

/-- The task is a watchdog that waits for the others. -/
def Watched (Q : Queue) (id : TaskId) : Prop :=
  Q.badge? id = some (.watchdog true) ∧ Q.order.length ≠ 1

/-- The task is a watcher that waits for a task of another kind. -/
def Outwaited (Q : Queue) (id : TaskId) : Prop :=
  Q.badge? id = some .watcher ∧ ∃ other ∈ Q.order, Q.badge? other ≠ some .watcher

inductive Entered (Q : Queue) (id : TaskId) (Q' : Queue) : Front → Prop
  | calls (same : Q.Same Q') (script : (Q.flag? id).isSome) : Entered Q id Q' (.call id)
  | rings (same : Q.Same Q') : Entered Q id Q' (.ring id 3)
  | goes (same : Q.Same Q') : Entered Q id Q' (.turn id)
  | waits (same : Q.Same Q') (waiting : Q.Watched id ∨ Q.Outwaited id) : Entered Q id Q' (.waits id)
  | bites (alarms : Q.Alarms Q') (watched : Q.Watched id) : Entered Q id Q' (.turn id)

theorem badge?_eq_watcher : Q.badge? id = some .watcher ↔ Q.Watches id := by
  rw [badge?, Option.map_eq_some_iff, Watches]
  refine exists_congr fun task => and_congr_right fun _ => ?_
  cases task <;> simp [Task.badge, Task.kind]

theorem WellFormed.outwaited (hQ : Q.WellFormed) (hbadge : Q.badge? id = some .watcher)
    (hothers : Q.onlyWatchers ≠ true) : Q.Outwaited id := by
  refine ⟨hbadge, ?_⟩
  by_contra hnone
  push Not at hnone
  exact hothers (hQ.onlyWatchers_iff.2 fun other hm => badge?_eq_watcher.1 (hnone other hm))

theorem Same.watched (h : Q.Same Q') (h' : Q'.Watched id) : Q.Watched id :=
  ⟨(h.badges id).symm.trans h'.1, by rw [← h.order]; exact h'.2⟩

theorem Same.outwaited (h : Q.Same Q') (h' : Q'.Outwaited id) : Q.Outwaited id := by
  obtain ⟨hbadge, other, hm, hother⟩ := h'
  rw [h.order] at hm
  rw [h.badges] at hbadge hother
  exact ⟨hbadge, other, hm, hother⟩

theorem Same.entered {Q₁ : Queue} {f : Front} (h : Q.Same Q₁) (h' : Q₁.Entered id Q' f) :
    Q.Entered id Q' f := by
  cases h' with
  | calls same script => exact .calls (h.trans same) (by rw [← h.flags]; exact script)
  | rings same => exact .rings (h.trans same)
  | goes same => exact .goes (h.trans same)
  | waits same waiting => exact .waits (h.trans same) (waiting.imp h.watched h.outwaited)
  | bites alarms watched => exact .bites (h.alarms alarms) (h.watched watched)

inductive Outcome (Q : Queue) (f : Front) (Q' : Queue) : Front → Prop
  | steps {f' : Front} (step : f.Step Q f') (same : Q.Same Q') : Outcome Q f Q' f'
  | enters {id : TaskId} {f' : Front} (mem : id ∈ Q.order)
      (front : f = .next (some id) ∨ f = .rest ∧ Q.order.head? = some id)
      (entered : Q.Entered id Q' f') : Outcome Q f Q' f'
  | leaves {id : TaskId} (front : f = .turn id) (loses : Q.Loses id Q') :
      Outcome Q f Q' (.next (Q.nextAfter? id))

end Queue

def Process.Comes (R : Queue → Front → Prop) (p : Process) : Prop :=
  p.world.Serves ∧ ∃ Q f, p.world.queue? 0 = some Q ∧ p.control.Stage f ∧ R Q f

theorem World.Attended.comes {R : Queue → Front → Prop} {f : Front} {control : Control} {w₁ : World}
    (h : w₁.Attended w.queues) (hQ : w.queue? 0 = some Q) (hstage : control.Stage f) (hR : R Q f) :
    Process.Comes R ⟨w₁, control⟩ := ⟨h.serves, Q, f, (h.queue? 0).trans hQ, hstage, hR⟩

theorem Process.Onward.comes {R : Queue → Front → Prop} {t : ScriptTask} {top : Nat}
    (h : p.Onward w.queues id (.cons (.script 0 id t top) (.cons (.turn 0 id walk) inner)))
    (hQ : w.queue? 0 = some Q) (hR : R Q (.call id)) : p.Comes R :=
  h.world.comes hQ (.calls h.control) hR

namespace World

theorem wellFormed_interruptAll (hwell : w.WellFormed) (watcher : WatcherTask) :
    (w.interruptAll 0 watcher).2.WellFormed :=
  (follows_interruptAll (I := fun _ _ => True) (T := fun _ => True) w 0 watcher
    (fun _ _ _ => trivial) fun _ _ _ _ _ => trivial).moves.wellFormed hwell

theorem alarms_interruptAll (hwell : w.WellFormed) (hQ : w.queue? 0 = some Q) :
    ∃ Q', (w.interruptAll 0 ⟨"", some ⟨interruptedNotice 0, none⟩⟩).2.queue? 0 = some Q' ∧
      Q.Alarms Q' := by
  obtain ⟨Q', new, hQ', htold, _⟩ :=
    told_interruptAll hwell hQ ⟨"", some ⟨interruptedNotice 0, none⟩⟩
  exact ⟨Q', hQ', htold.alarms (hwell 0 Q hQ) (wellFormed_interruptAll hwell _ 0 Q' hQ')
    (.watcher fun c hc => (Option.some.inj hc).symm)⟩

theorem comes_callProtected {w₁ : World} (h : w₁.Attended w.queues) (hQ : w.queue? 0 = some Q')
    (hsame : Q.Same Q') (hscript : (Q.flag? id).isSome) (t : ScriptTask) (key top : Nat)
    (walk : Walk) :
    (w₁.callProtected 0 key .traceback (.cons (.script 0 id t top)
      (.cons (.turn 0 id walk) inner))).Comes (Q.Entered id) :=
  (h.callProtected key .traceback).executes.onward.comes hQ (.calls hsame hscript)

section Entering

variable (hw : w.Serves) (hQ : w.queue? 0 = some Q)

include hw hQ

theorem comes_stepScript {t : ScriptTask} (hg : Q.get? id = some (.script t)) (ht : t.engine = 0)
    (walk : Walk) : (w.stepScript 0 id t (.cons (.turn 0 id walk) inner)).Comes (Q.Entered id) := by
  obtain ⟨engine, key, release, armed, ran⟩ := t
  obtain rfl : engine = 0 := ht
  have hsame : Q.Same (Q.modify id fun _ => .script ⟨0, key, release, armed, true⟩) :=
    Queue.same_modify _ hg rfl fun _ => .script rfl
  have hQ₁ : (w.modifyQueue 0 (·.modify id fun _ => .script ⟨0, key, release, armed, true⟩)).queue?
      0 = some (Q.modify id fun _ => .script ⟨0, key, release, armed, true⟩) := by
    rw [queue?_modifyQueue, hQ, Option.map_some]
  have hw₁ :=
    (hw.modifyQueue 0 (·.modify id fun _ => .script ⟨0, key, release, armed, true⟩)).attended
  have hscript : (Q.flag? id).isSome := by rw [Queue.flag?, hg]; rfl
  unfold stepScript
  dsimp only
  split
  · exact comes_callProtected (hw₁.installHook 0) hQ₁ hsame hscript _ _ _ walk
  · exact comes_callProtected hw₁ hQ₁ hsame hscript _ _ _ walk

theorem comes_stepWatchdog (hwell : w.WellFormed) (hbadge : Q.badge? id = some (.watchdog true))
    (deadline : UInt64) (walk : Walk) :
    (w.stepWatchdog 0 deadline (.cons (.turn 0 id walk) inner)).Comes (Q.Entered id) := by
  unfold stepWatchdog
  split
  · exact hw.attended.comes hQ (.done id walk) (.goes (.refl Q))
  · next hcount =>
    have hwatched : Q.Watched id := ⟨hbadge, fun hlength => hcount (by rw [hQ]; exact hlength)⟩
    split
    · exact hw.attended.comes hQ (.again id walk) (.waits (.refl Q) (.inl hwatched))
    · obtain ⟨Q₁, hQ₁, halarms⟩ := alarms_interruptAll hwell hQ
      exact ⟨hw.interruptAll _, Q₁, _, hQ₁, .done id walk, .bites halarms hwatched⟩

theorem comes_stepWatcher {callback : Option QuietCallback} (hwf : Q.WellFormed)
    (hg : Q.get? id = some (.watcher ⟨"", callback⟩))
    (hnotice : ∀ c, callback = some c → c = ⟨interruptedNotice 0, none⟩) (walk : Walk) :
    (w.stepWatcher 0 id ⟨"", callback⟩ (.cons (.turn 0 id walk) inner)).Comes (Q.Entered id) := by
  have hbadge : Q.badge? id = some .watcher := by rw [Queue.badge?, hg]; rfl
  unfold stepWatcher
  rw [hQ]
  dsimp only
  split
  · next hothers =>
    have houtwaited : Q.Outwaited id := hwf.outwaited hbadge (by simpa using hothers)
    exact hw.attended.comes hQ (.again id walk) (.waits (.refl Q) (.inr houtwaited))
  · cases callback with
    | none => exact hw.attended.comes hQ (.done id walk) (.goes (.refl Q))
    | some c =>
      obtain rfl := hnotice c rfl
      have hsame : Q.Same (Q.modify id fun _ => .watcher ⟨"", none⟩) :=
        Queue.same_modify _ hg rfl fun _ => .watcher fun _ hc => by cases hc
      exact ⟨hw.setQueue 0 (Q.modify id fun _ => .watcher ⟨"", none⟩), _, _,
        queue?_setQueue_self hQ _, .rings .notifies, .rings hsame⟩

end Entering

theorem comes_stepTask {task : Task} (hw : w.Serves) (hwell : w.WellFormed)
    (hQ : w.queue? 0 = some Q) (hg : Q.get? id = some task) (hmember : task.Member) (walk : Walk) :
    (w.stepTask 0 id task (.cons (.turn 0 id walk) inner)).Comes (Q.Entered id) := by
  cases hmember with
  | script engine => exact comes_stepScript hw hQ hg engine walk
  | watchdog deadline alive =>
    rw [stepTask, stepIdle]
    split
    · exact hw.attended.comes hQ (.done id walk) (.goes (.refl Q))
    · next halive =>
      have hbadge : Q.badge? id = some (.watchdog true) := by
        rw [Queue.badge?, hg]
        simpa [Task.badge] using halive
      exact comes_stepWatchdog hw hQ hwell hbadge deadline walk
  | watcher notice => exact comes_stepWatcher hw hQ (hwell 0 Q hQ) hg notice walk

section Passing

variable (hw : w.Serves) (hwell : w.WellFormed) (hQ : w.queue? 0 = some Q) (hm : Q.Members)
  (hidle : Q.current = none) {f : Front}

include hw hQ

theorem comes_finishPass (next : Option TaskId) (walk : Walk) :
    (w.finishPass 0 walk inner).Comes (Q.Outcome (.next next)) :=
  ⟨hw.modifyQueue 0 _, Q.countPass walk.stepped walk.completed, .rest,
    by rw [finishPass, deliver, queue?_modifyQueue, hQ]; rfl, .passed _,
    .steps (.rests next) (Queue.same_of_tasks rfl rfl)⟩

include hwell hm hidle

theorem comes_walkOn_some {task : Task} (hg : Q.get? id = some task) (walk : Walk)
    (hfront : f = .next (some id) ∨ f = .rest ∧ Q.order.head? = some id) :
    (w.walkOn 0 (some id) walk inner).Comes (Q.Outcome f) := by
  have hQ₁ : (w.modifyQueue 0 (·.enter id)).queue? 0 = some (Q.enter id) := by
    rw [queue?_modifyQueue, hQ]
    rfl
  have hwell₁ := wellFormed_enter hwell hQ hidle hg
  obtain ⟨hserves, Q', f', hQ', hstage, hentered⟩ := comes_stepTask (hw.modifyQueue 0 _) hwell₁
    hQ₁ hg (hm id task hg) { walk with visited := id :: walk.visited }
  have hsame : Q.Same (Q.enter id) := Queue.same_of_tasks rfl rfl
  rw [walkOn, hQ, Option.bind_eq_bind, Option.bind_some, hg]
  exact ⟨hserves, Q', f', hQ', hstage, .enters (((hwell 0 Q hQ).order id).2 ⟨task, hg⟩) hfront
    (hsame.entered hentered)⟩

theorem comes_walkOn (next : Option TaskId) (walk : Walk) :
    (w.walkOn 0 next walk inner).Comes (Q.Outcome (.next next)) := by
  cases next with
  | none => exact comes_finishPass hw hQ none walk
  | some id =>
    cases hg : Q.get? id with
    | none =>
      rw [walkOn, hQ, Option.bind_eq_bind, Option.bind_some, hg]
      exact comes_finishPass hw hQ (some id) walk
    | some task => exact comes_walkOn_some hw hwell hQ hm hidle hg walk (.inl rfl)

theorem comes_drainOn : (w.drainOn 0 outer).Comes (Q.Outcome .rest) := by
  unfold drainOn
  rw [hQ]
  dsimp only
  split
  · exact ⟨hw.setQueue 0 _, { Q with stopping := false }, _, queue?_setQueue_self hQ _,
      .drained .stopped, .steps .ends (Queue.same_of_tasks rfl rfl)⟩
  · split
    · exact hw.attended.comes hQ (.drained .drained) (.steps .ends (.refl Q))
    · next hnonempty =>
      rw [startPass, hQ]
      dsimp only
      rw [hidle]
      -- a pass over a queue with tasks begins with a turn
      cases horder : Q.order with
      | nil => simp [horder] at hnonempty
      | cons id rest =>
        obtain ⟨task, hg⟩ := ((hwell 0 Q hQ).order id).1 (by rw [horder]; exact List.mem_cons_self ..)
        exact comes_walkOn_some hw hwell hQ hm hidle hg {} (.inr ⟨rfl, by rw [horder]; rfl⟩)

end Passing

section Leaving

variable {task : Task} {kept rest : List TaskId} (hw : w.Serves) (hQ : w.queue? 0 = some Q)
  (hwf : Q.WellFormed) (hg : Q.get? id = some task)

include hw hQ hwf hg

theorem comes_endTurn_done (hm : Q.Members)
    (hwell : (w.endTurn 0 id walk .done inner).world.WellFormed) :
    (w.endTurn 0 id walk .done inner).Comes (Q.Outcome (.turn id)) := by
  obtain ⟨kept, rest, horder⟩ := List.append_of_mem ((hwf.order id).2 ⟨task, hg⟩)
  obtain ⟨Q₁, hkeeps, heq⟩ := endTurn_done hQ hwf hg horder walk inner
  generalize Walk.mk walk.visited (walk.stepped + 1) (walk.completed + 1) = walk₁ at heq
  obtain ⟨w₁, hdestroy, hw₁⟩ := (hm id task hg).destroy (hw.setQueue 0 Q₁)
    (.cons (.walk 0 rest.head? walk₁) inner)
  rw [heq, hdestroy] at hwell ⊢
  have hQ₁ : w₁.queue? 0 = some Q₁ := (hw₁.queue? 0).trans (queue?_setQueue_self hQ Q₁)
  refine ⟨hw₁.serves, Q₁, _, hQ₁, .walks rest.head? walk₁, ?_⟩
  rw [← Queue.nextAfter?_eq hwf.nodup horder]
  exact .leaves rfl (hkeeps.loses hwf (hwell 0 Q₁ hQ₁) horder)

theorem comes_endTurn_again (hc : Q.current = some id) :
    (w.endTurn 0 id walk .again inner).Comes (Q.Outcome (.waits id)) := by
  obtain ⟨kept, rest, horder⟩ := List.append_of_mem ((hwf.order id).2 ⟨task, hg⟩)
  have heq := endTurn_again hQ hwf hc hg horder walk inner
  rw [heq, ← Queue.nextAfter?_eq hwf.nodup horder]
  exact ⟨hw.setQueue 0 _, Q.leave, _, queue?_setQueue_self hQ _, .walks _ _,
    .steps (.passes id) (Queue.same_of_tasks rfl rfl)⟩

end Leaving

theorem comes_scriptReturned (hw : w.Serves) (hQ : w.queue? 0 = some Q) (t : ScriptTask) (top : Nat)
    (result : Except CallError Unit) :
    (w.scriptReturned 0 id t top result (.cons (.turn 0 id walk) inner)).Comes
      (Q.Outcome (.call id)) := by
  unfold scriptReturned
  cases result with
  | ok =>
    exact (hw.attended.restored id t top rfl rfl).comes hQ (.done id walk) (.steps (.returns id) (.refl Q))
  | error e =>
    exact ((hw.notify 0 .notice e.notice).attended.restored id t top rfl rfl).comes
      (queue?_notify hQ .notice e.notice) (.done id walk)
      (.steps (.returns id) (Queue.same_of_tasks rfl rfl))

theorem comes_interruption (hw : w.Serves) (hwell : w.WellFormed) (hQ : w.queue? 0 = some Q)
    {k : Pending .reply} {f : Front} (hstage : ∀ reply, (Control.deliver reply k).Stage f) :
    (w.perform interruption k).Comes fun Q' f' => f' = f ∧ Q.Alarms Q' := by
  obtain ⟨Q₁, hQ₁, halarms⟩ := alarms_interruptAll hwell hQ
  rw [interruption, perform, hQ]
  exact ⟨hw.interruptAll _, Q₁, f, hQ₁, hstage _, rfl, halarms⟩

theorem comes_rings {left : Nat} {control : Control} (hw : w.Serves) (hQ : w.queue? 0 = some Q)
    (h : control.Rings (.cons (.turn 0 id walk) inner) left) :
    (Process.step ⟨w, control⟩).Comes (Q.Outcome (.ring id left)) := by
  cases h with
  | notifies =>
    have hperform : ∀ k, w.perform notice k = (w.notify 0 .notice "Interrupted.").deliver k .null :=
      fun k => by simp only [perform, hQ, performOnQueue]
    change (w.perform notice _).Comes _
    rw [hperform]
    exact (hw.notify 0 .notice "Interrupted.").attended.comes
      (queue?_notify hQ .notice "Interrupted.") (.rings (.notified .null))
      (.steps (.rings id 2) (Queue.same_of_tasks rfl rfl))
  | notified reply =>
    exact (hw.attended.logged _).comes hQ (.rings (.quieted _)) (.steps (.rings id 1) (.refl Q))
  | quieted complaint =>
    exact hw.attended.comes hQ (.rings .rested) (.steps (.rings id 0) (.refl Q))
  | rested => exact hw.attended.comes hQ (.done id walk) (.steps (.rang id) (.refl Q))

end World

namespace Process

/-- The hook of the queue cancels the script whose turn it is. -/
theorem Sound.eq_of_cancelled? {id' : TaskId} (h : p.Sound) (hturns : (0, id) ∈ p.control.turns)
    (hcancelled : (p.world.queue? 0 >>= (·.cancelled?)) = some id') : id' = id := by
  obtain ⟨Q, hQ, hfilter⟩ := Option.bind_eq_some_iff.1 hcancelled
  have hcurrent := (h.ready.running hturns).current hQ
  rw [Queue.cancelled?, hcurrent] at hfilter
  exact (Option.some.inj (Option.eq_some_of_filter_eq_some hfilter)).symm

/-- What a transition does while a script calls its program. -/
theorem Sound.comes_calls {t : ScriptTask} {top : Nat} (h : p.Sound) (hw : p.world.Serves)
    (hQ : p.world.queue? 0 = some Q)
    (hcall : p.control.Calls id (.cons (.script 0 id t top) (.cons (.turn 0 id walk) inner))) :
    (p.control.action? = some interruption ∧
      p.step.Comes fun Q' f' => f' = .call id ∧ Q.Alarms Q') ∨
    (p.control.action? ≠ some interruption ∧ p.step.Comes (Q.Outcome (.call id))) := by
  have hturns : (0, id) ∈ p.control.turns := by
    rw [hcall.turns]
    exact List.mem_cons_self ..
  have hquiet : none ≠ some interruption := (Option.some_ne_none _).symm
  have hcancelled : ∀ id', (p.world.queue? 0 >>= (·.cancelled?)) = some id' → id' = id :=
    fun _ => h.eq_of_cancelled? hturns
  have hwell := h.queues
  obtain ⟨w, control⟩ := p
  have hgoes : ∀ {p' : Process}, p'.Onward w.queues id (.cons (.script 0 id t top)
      (.cons (.turn 0 id walk) inner)) → p'.Comes (Q.Outcome (.call id)) :=
    fun honward => honward.comes hQ (.steps (.calls id) (.refl Q))
  cases hcall with
  | executed executed =>
    cases executed with
    | resumed resumed =>
      cases resumed with
      | runs call => exact .inr ⟨hquiet, hgoes (hw.attended.runMachine hcancelled call)⟩
      | ends result => exact .inr ⟨hquiet, World.comes_scriptReturned hw hQ t top result⟩
    | @performs call name turn action mem =>
      by_cases haction : action = interruption
      · subst haction
        exact .inl ⟨rfl, World.comes_interruption hw hwell hQ fun reply =>
          .calls (.answers call name turn _ reply)⟩
      · obtain ⟨w₁, reply, hstep, hw₁⟩ := hw.attended.perform mem haction
          (.cons (.routine action [] none) (.cons (.host 0 call name turn)
            (.cons (.script 0 id t top) (.cons (.turn 0 id walk) inner))))
        refine .inr ⟨fun h => haction (Option.some.inj h), ?_⟩
        change (w.perform action _).Comes _
        rw [hstep]
        exact hgoes ⟨hw₁, .answers call name turn action reply⟩
  | counted call op => exact .inr ⟨hquiet, hgoes (hw.attended.executeOp call op).onward⟩
  | answers call name turn action reply =>
    exact .inr ⟨hquiet, hgoes ⟨hw.attended.logged _, .hosted call name turn _⟩⟩
  | hosted call name turn complaint =>
    exact .inr ⟨hquiet, hgoes (hw.attended.hostReturned call name turn complaint).executes.onward⟩
  | cancels call op =>
    exact .inr ⟨hquiet, hgoes ⟨hw.attended.modifyMachine _, .leaves⟩⟩
  | leaves =>
    refine .inr ⟨hquiet, ?_⟩
    rw [step_unwind, Activation.unwind, if_pos rfl]
    exact World.comes_scriptReturned hw hQ t top (.ok ())

/-- What a transition does: a script interrupts everything, or it is one of the other outcomes. -/
theorem Sound.comes_step {f : Front} (h : p.Sound) (hw : p.world.Serves)
    (hQ : p.world.queue? 0 = some Q) (hm : Q.Members) (hstage : p.control.Stage f)
    (hmem : ∀ id, f.task? = some id → id ∈ Q.order) :
    (p.control.action? = some interruption ∧ ∃ id, f = .call id ∧
      p.step.Comes fun Q' f' => f' = .call id ∧ Q.Alarms Q') ∨
    (p.control.action? ≠ some interruption ∧ p.step.Comes (Q.Outcome f)) := by
  have hquiet : none ≠ some interruption := (Option.some_ne_none _).symm
  have hwell := h.queues
  have hwf := hwell 0 Q hQ
  have hwell' := h.step.2.queues
  -- the running mark of the queue agrees with the stage
  have hidle : f.task? = none → Q.current = none := fun hfree => by
    cases hc : Q.current with
    | none => rfl
    | some id =>
      have hm := h.ready.marks hQ hc hstage.ne_aborted
      rw [hstage.turns, hfree] at hm
      cases hm
  have hcurrent : ∀ id, f.task? = some id → Q.current = some id := fun id hid =>
    (h.ready.running (by rw [hstage.turns, hid]; exact List.mem_cons_self ..)).current hQ
  obtain ⟨w, control⟩ := p
  cases hstage with
  | opens =>
    refine .inr ⟨by simp [Control.action?, interruption], ?_⟩
    have hstep : Process.step ⟨w, .perform (.queue 0 .runOnce) .outermost⟩ = w.drainOn 0 outer := by
      simp [Process.step, World.perform, World.performOnQueue, World.startRun,
        show w.queue? 0 = some Q from hQ, hidle rfl]
    rw [hstep]
    exact World.comes_drainOn hw hwell hQ hm (hidle rfl)
  | passed n => exact .inr ⟨hquiet, World.comes_drainOn hw hwell hQ hm (hidle rfl)⟩
  | drained outcome =>
    exact .inr ⟨hquiet, hw.attended.comes hQ (.replied _) (.steps (.closes 1) (.refl Q))⟩
  | replied reply =>
    exact .inr ⟨hquiet, hw.attended.comes hQ (.ended reply) (.steps (.closes 0) (.refl Q))⟩
  | ended reply => exact .inr ⟨hquiet, hw.attended.comes hQ (.ended reply) (.steps .ended (.refl Q))⟩
  | walks next walk =>
    exact .inr ⟨hquiet, World.comes_walkOn hw hwell hQ hm (hidle rfl) next walk⟩
  | calls call => exact (h.comes_calls hw hQ call).imp_left fun h => ⟨h.1, _, rfl, h.2⟩
  | rings ring =>
    refine .inr ⟨?_, World.comes_rings hw hQ ring⟩
    cases ring <;> simp [Control.action?, interruption]
  | done id walk =>
    obtain ⟨task, hg⟩ := (hwf.order id).1 (hmem id rfl)
    exact .inr ⟨hquiet, World.comes_endTurn_done hw hQ hwf hg hm hwell'⟩
  | again id walk =>
    obtain ⟨task, hg⟩ := (hwf.order id).1 (hmem id rfl)
    exact .inr ⟨hquiet, World.comes_endTurn_again hw hQ hwf hg (hcurrent id rfl)⟩

end Process

end TaskLoop
