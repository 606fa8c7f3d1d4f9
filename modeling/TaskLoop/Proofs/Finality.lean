import TaskLoop.Proofs.Quiescence
import TaskLoop.Proofs.Roles
import TaskLoop.Proofs.Statistics
import TaskLoop.Proofs.Timers

namespace TaskLoop

variable {w : World} {q i l m : Nat} {id : TaskId} {p : Process} {task task' : Task} {s : Course}

namespace World

theorem task?_interruptOne {Q : Queue} (hQ : w.queue? q = some Q) (hg : Q.get? id = some task)
    (k : Pending .reply) : (w.interruptOne q Q id k).world.task? q id = some task.told := by
  have hcontains : Q.contains id = true := by
    simp [Queue.contains, Arena.contains, show Q.tasks.get? id = _ from hg]
  have htold := (tells_interruptTask w q id).tasks id
  rw [task?_eq_some.2 ⟨Q, hQ, hg⟩, Option.map_some, if_pos (List.mem_singleton.2 rfl)] at htold
  rw [interruptOne, if_pos hcontains]
  generalize w.interruptTask q id = r at htold ⊢
  obtain ⟨delivered, w₁⟩ := r
  cases delivered with
  | true =>
    obtain ⟨Q₁, hQ₁, hg₁⟩ := task?_eq_some.1 htold
    exact task?_eq_some.2 ⟨Q₁.countInterrupts 1,
      (queue?_modifyQueue w₁ q _).trans (congrArg _ hQ₁), hg₁⟩
  | false => exact htold

theorem task?_interruptAll (hw : w.WellFormed) (ht : w.task? q id = some task)
    (watcher : WatcherTask) : (w.interruptAll q watcher).2.task? q id = some task.told := by
  obtain ⟨Q, hQ, hg⟩ := task?_eq_some.1 ht
  obtain ⟨Q₁, watching, hQ₁, htold, _⟩ := told_interruptAll hw hQ watcher
  refine task?_eq_some.2 ⟨Q₁, hQ₁, ?_⟩
  rw [htold.records id (((hw q Q hQ).order id).2 ⟨task, hg⟩), show Q.get? id = some task from hg]
  rfl

end World

namespace Process

def Reaches (p : Process) (q : Nat) (id : TaskId) : Prop :=
  ∃ action k, p.control = .perform action k ∧ action.reaches p.world q id = true

theorem Sound.task?_of_reaches (h : p.Sound) (hreaches : p.Reaches q id)
    (ht : p.world.task? q id = some task) : p.step.world.task? q id = some task.told := by
  obtain ⟨w, control⟩ := p
  obtain ⟨action, k, rfl, hreach⟩ := hreaches
  obtain ⟨Q, hQ, hg⟩ := World.task?_eq_some.1 ht
  cases action with
  | queue q' action =>
    cases action with
    | interrupt name =>
      obtain ⟨rfl, rfl⟩ : q' = q ∧ w.resolve name = id := of_decide_eq_true hreach
      simp only [Process.step, World.perform, hQ, World.performOnQueue]
      exact World.task?_interruptOne hQ hg k
    | interruptAll name actions onDrop =>
      obtain rfl : q' = q := of_decide_eq_true hreach
      simp only [Process.step, World.perform, hQ, World.performOnQueue]
      exact ((World.aside_named (T := fun _ => True) _ name q' _).task? q' id).trans
        (World.task?_interruptAll h.queues ht _)
    | _ => cases hreach
  | _ => cases hreach

end Process

theorem Task.alive_told (h : task.kind = .idle ∨ task.kind = .timer) : task.told.alive = false := by
  cases task with
  | idle | timer => rfl
  | script | watcher => obtain h | h := h <;> cases h

theorem World.timerFired_told (ht : w.task? q id = some task) (hdead : task.alive = false)
    (k : Pending .verdict) : w.timerFired q id k = w.deliver k .done := by
  cases task with
  | timer t => exact timerFired_done ht (.inr hdead) k
  | idle t =>
    obtain ⟨Q, hQ, hg⟩ := task?_eq_some.1 ht
    have hrecord : Q.record? id = some (.idle t) := by rw [Queue.record?, hg]; rfl
    simp only [timerFired, hQ, hrecord]
  | script | watcher => cases hdead

namespace Process

theorem Sound.told_step (h : p.Sound) (hpaired : p.control.Paired)
    (ht : p.world.task? q id = some task) (hdead : task.alive = false)
    (ht' : p.step.world.task? q id = some task') : task'.alive = false := by
  cases hfired : p.control.fired? with
  | none =>
    exact Bool.eq_false_iff.2 fun halive => by
      cases hdead.symm.trans ((h.upholds hfired ht ht').alive halive)
  | some timer =>
    obtain ⟨q', id'⟩ := timer
    have hfired' : p.Fired q' id' := hfired
    obtain ⟨walk, k, _, _, hstep⟩ := hfired'.step_eq hpaired
    rw [hstep] at ht'
    have hsame : (p.world.timerFired q' id' (.cons (.turn q' id' walk) k)).world.task? q id =
        p.world.task? q id := by
      by_cases he : (q, id) = (q', id')
      · cases he
        rw [World.timerFired_told ht hdead]
        rfl
      · refine World.task?_timerFired_of_ne (fun hq hid => ?_) _
        exact absurd (Prod.ext hq hid) he
    rw [hsame, ht] at ht'
    exact Option.some.inj ht' ▸ hdead

/-- The step of a task that was told to finish is done at once, and nothing else happens. -/
theorem Begins.step_told (h : p.Begins q id) (ht : p.world.task? q id = some task)
    (hdead : task.alive = false) : ∃ walk k,
      p.step = (p.world.modifyQueue q (·.enter id)).deliver (.cons (.turn q id walk) k) .done := by
  have henters := h.enters
  generalize p.step = p' at henters ⊢
  cases henters with
  | @intro task₁ walk k queued turns =>
    obtain rfl := Option.some.inj (queued.symm.trans ht)
    refine ⟨walk, k, ?_⟩
    cases task₁ with
    | idle t =>
      have halive : t.alive = false := hdead
      simp [World.stepTask, World.stepIdle, halive]
    | timer t =>
      have halive : t.alive = false := hdead
      simp [World.stepTask, World.stepTimer, halive]
    | script | watcher => cases hdead

/-- The turn of a queued task ends with the next transition, which takes the task out of its queue and
counts it as completed. -/
def Unlinks (p : Process) (q : Nat) (id : TaskId) : Prop :=
  ∃ walk k, p = p.world.deliver (.cons (.turn q id walk) k) .done ∧
    p.world.task? q id ≠ none ∧ p.step.world.task? q id = none ∧
    ∃ next, p.step.control.Upon
      (.cons (.walk q next ⟨walk.visited, walk.stepped + 1, walk.completed + 1⟩) k)

theorem Sound.unlinks (h : p.Sound) (hcompletes : p.Completes q id)
    (ht : p.world.task? q id = some task) : p.Unlinks q id := by
  have hgone := h.task?_of_leaves (.inr hcompletes)
  obtain ⟨walk, k, hp⟩ := hcompletes
  obtain ⟨Q, hQ, hg⟩ := World.task?_eq_some.1 ht
  refine ⟨walk, k, hp, by rw [ht]; exact Option.some_ne_none _, hgone,
    World.chooseNext Q id walk.visited, ?_⟩
  obtain ⟨left, _, hend⟩ := World.endTurn_completes hQ hg walk k
  have hstep : p.step = p.world.endTurn q id walk .done k := by
    rw [hp]
    exact step_deliver p.world _ (.turn q id walk) k
  rw [hstep, hend]
  exact (World.minds_destroy (S := fun _ => True) (E := True) (B := True)
    (World.Minds.refl (q := q) _) task _).stack.upon

def logged (p : Process) : List Event :=
  p.step.world.log.take (p.step.world.log.length - p.world.log.length)

theorem logged_eq {new : List Event} (h : p.step.world.log = new ++ p.world.log) :
    p.logged = new := by
  rw [logged, h, List.length_append, Nat.add_sub_cancel, List.take_left]

theorem begins_of_mem_logged {event : Event} (h : event ∈ p.logged) (hturn : event.ofTurn = true) :
    ∃ q id, p.Begins q id := by
  obtain ⟨new, hnew, hall⟩ := p.exists_log_step
  rw [logged_eq hnew] at h
  exact hall event h hturn

theorem Begins.ended (h : p.Begins q id) : p.control.ended = false := by
  refine Bool.eq_false_iff.2 fun hended => ?_
  rw [Begins, step_of_ended hended] at h
  exact absurd (congrArg List.length h) (Nat.succ_ne_self _).symm

end Process

namespace Course

theorem told_succ (ht : (s l).world.task? q id = some task) (hdead : task.alive = false)
    (ht' : (s (l + 1)).world.task? q id = some task') : task'.alive = false := by
  obtain hstep | ⟨_, command, hbegin⟩ := s.step_or_begin l
  · rw [hstep] at ht'
    exact (s.sound l).told_step (s.paired l) ht hdead ht'
  · obtain ⟨Q, hQ, hg⟩ := World.task?_eq_some.1 ht'
    rw [hbegin] at hQ
    have hsame := World.task?_eq_some.2 ⟨Q, World.queue?_begin hQ, hg⟩
    exact Option.some.inj (hsame.symm.trans ht) ▸ hdead

structure Told (s : Course) (i q : Nat) (id : TaskId) (task : Task) : Prop where
  queued : (s i).world.task? q id = some task
  kind : task.kind = .idle ∨ task.kind = .timer
  reached : (s i).Reaches q id

namespace Told

theorem succ_eq (h : s.Told i q id task) : s (i + 1) = (s i).step := by
  obtain ⟨action, k, hcontrol, _⟩ := h.reached
  exact succ_eq_step (by rw [hcontrol]; rfl)

/-- Whatever becomes of it, the task is not alive any more. -/
theorem dead (h : s.Told i q id task) (hil : i < l)
    (ht : (s l).world.task? q id = some task') : task'.alive = false := by
  induction l, hil using Nat.le_induction generalizing task' with
  | base =>
    rw [h.succ_eq, (s.sound i).task?_of_reaches h.reached h.queued] at ht
    exact Option.some.inj ht ▸ Task.alive_told h.kind
  | succ l hil ih =>
    cases hold : (s l).world.task? q id with
    | none =>
      have hgone := task?_eq_none (Nat.le_of_lt hil) (Nat.le_succ l) h.queued hold
      cases hgone.symm.trans ht
    | some old => exact told_succ hold (ih hold) ht

/-- The next turn of the task ends at once. -/
theorem succ_of_begins (h : s.Told i q id task) (hil : i < l) (hbegins : (s l).Begins q id) :
    ∃ walk k, s (l + 1) =
      ((s l).world.modifyQueue q (·.enter id)).deliver (.cons (.turn q id walk) k) .done := by
  obtain ⟨task', ht'⟩ := hbegins.enters.queued
  rw [succ_eq_step hbegins.ended]
  exact hbegins.step_told ht' (h.dead hil ht')

theorem unlinks_of_begins (h : s.Told i q id task) (hil : i < l) (hbegins : (s l).Begins q id) :
    (s (l + 1)).Unlinks q id := by
  obtain ⟨task', ht'⟩ := hbegins.enters.queued
  obtain ⟨walk, k, hnext⟩ := h.succ_of_begins hil hbegins
  have hqueued : (s (l + 1)).world.task? q id = some task' := by
    rw [hnext]
    exact World.task?_enter.trans ht'
  exact (s.sound (l + 1)).unlinks ⟨walk, k, by rw [hnext]; rfl⟩ hqueued

theorem gone_of_unlinks (h : s.Told i q id task) (hil : i ≤ l) (hunlinks : (s l).Unlinks q id)
    (hlm : l < m) : (s m).world.task? q id = none := by
  obtain ⟨walk, k, hp, _, hgone, _⟩ := hunlinks
  have hnext : s (l + 1) = (s l).step := succ_eq_step (by rw [hp]; rfl)
  rw [← hnext] at hgone
  exact task?_eq_none (Nat.le_succ_of_le hil) hlm h.queued hgone

theorem begins_unique (h : s.Told i q id task) (hil : i < l) (hbegins : (s l).Begins q id)
    (hlm : l < m) : ¬ (s m).Begins q id := by
  intro hagain
  obtain rfl | hlt := Nat.eq_or_lt_of_le (show l + 1 ≤ m from hlm)
  · -- the turn is on the stack when it has just begun
    refine (s.sound (l + 1)).not_mem_turns_of_begins hagain id ?_
    rw [succ_eq_step hbegins.ended, show (s l).step.control.turns = _ from hbegins]
    exact List.mem_cons_self ..
  · have hgone := h.gone_of_unlinks (Nat.le_succ_of_le (Nat.le_of_lt hil))
      (h.unlinks_of_begins hil hbegins) hlt
    obtain ⟨task', ht'⟩ := hagain.enters.queued
    cases hgone.symm.trans ht'

theorem not_goesOff (h : s.Told i q id task) (hil : i < l) : ¬ (s l).GoesOff q id := by
  intro hoff
  obtain ⟨_, t, ht, halive, _⟩ := goesOff_iff.1 hoff
  cases (h.dead hil ht).symm.trans halive

/-- What the log tells of from then on are the turns of other tasks. -/
theorem begins_of_mem_logged (h : s.Told i q id task) (hil : i < l) {event : Event}
    (hm : event ∈ (s l).logged) (hturn : event.ofTurn = true) :
    ∃ q' id', (q', id') ≠ (q, id) ∧ (s l).Begins q' id' := by
  obtain ⟨q', id', hbegins⟩ := Process.begins_of_mem_logged hm hturn
  refine ⟨q', id', fun he => ?_, hbegins⟩
  cases he
  obtain ⟨walk, k, hnext⟩ := h.succ_of_begins hil hbegins
  rw [succ_eq_step hbegins.ended] at hnext
  have hnothing : (s l).logged = [] := Process.logged_eq (by rw [hnext]; rfl)
  rw [hnothing] at hm
  cases hm

/-- When the callback of an interrupted timer returns, its step is done. -/
theorem unlinks_of_fired (h : s.Told i q id task) (hil : i < l) (hfired : (s l).Fired q id)
    (ht : (s l).world.task? q id = some task') : (s (l + 1)).Unlinks q id := by
  obtain ⟨walk, k, _, _, hstep⟩ := hfired.step_eq (s.paired l)
  rw [World.timerFired_told ht (h.dead hil ht)] at hstep
  have hnext := (succ_eq_step (ended_of_fired hfired)).trans hstep
  have hqueued : (s (l + 1)).world.task? q id = some task' := by
    rw [hnext]
    exact ht
  exact (s.sound (l + 1)).unlinks ⟨walk, k, by rw [hnext]; rfl⟩ hqueued

end Told

/-- An interrupt is final, wherever it comes from. After an idle task or a timer was interrupted, by
itself or with all tasks of its queue, no callback of it is invoked in whatever follows: the log tells
of the turns of other tasks only, and no activation of the timer comes on the stack. The task has one
more turn at most, which gives its verdict with the transition that begins it and does nothing else;
the next transition takes the task out of its queue for good and counts it as completed. A timer that
was interrupted while its callback ran, and is queued when the callback returns, is completed by the
same turn. -/
theorem interrupt_final (s : Course) (h : s.Told i q id task) :
    (∀ l, i < l → ∀ event ∈ (s l).logged, event.ofTurn = true →
      ∃ q' id', (q', id') ≠ (q, id) ∧ (s l).Begins q' id') ∧
    (∀ l, i < l → ¬ (s l).GoesOff q id) ∧
    (∀ l, i < l → (s l).Begins q id →
      (∃ walk k, s (l + 1) =
        ((s l).world.modifyQueue q (·.enter id)).deliver (.cons (.turn q id walk) k) .done) ∧
      (s (l + 1)).Unlinks q id ∧ (∀ m, l + 1 < m → (s m).world.task? q id = none) ∧
      ∀ m, i < m → (s m).Begins q id → m = l) ∧
    ∀ l, i < l → (s l).Fired q id → (s l).world.task? q id ≠ none →
      (s (l + 1)).Unlinks q id ∧ ∀ m, l + 1 < m → (s m).world.task? q id = none := by
  refine ⟨fun l hil event hm hturn => h.begins_of_mem_logged hil hm hturn,
    fun l hil => h.not_goesOff hil, fun l hil hbegins => ?_, fun l hil hfired hqueued => ?_⟩
  · have hunlinks := h.unlinks_of_begins hil hbegins
    refine ⟨h.succ_of_begins hil hbegins, hunlinks, fun m hlm => ?_, fun m him hagain => ?_⟩
    · exact h.gone_of_unlinks (Nat.le_succ_of_le (Nat.le_of_lt hil)) hunlinks hlm
    · obtain hlt | rfl | hgt := Nat.lt_trichotomy m l
      · exact absurd hbegins (h.begins_unique him hagain hlt)
      · rfl
      · exact absurd hagain (h.begins_unique hil hbegins hgt)
  · obtain ⟨task', ht'⟩ := Option.ne_none_iff_exists'.1 hqueued
    have hunlinks := h.unlinks_of_fired hil hfired ht'
    exact ⟨hunlinks, fun m hlm =>
      h.gone_of_unlinks (Nat.le_succ_of_le (Nat.le_of_lt hil)) hunlinks hlm⟩

def insistent : Course :=
  .ofCommands [{}] []
    [.act (.queue 0 (.idle "A" [⟨[.queue 0 (.interruptAll "W" [] none)], .again⟩] none)),
      .act (.queue 0 (.timer "T" 0 (some 0) [] none)), .act (.queue 0 .runPass),
      .act (.queue 0 .runPass)]

/-- The idle task and the timer have one more turn each, and a timer that has interrupted itself has
none. -/
theorem interrupt_final_insistent :
    ((∃ task, insistent.Told 8 0 ⟨1, 1⟩ task) ∧ (insistent 20).Begins 0 ⟨1, 1⟩ ∧
      (insistent 21).Unlinks 0 ⟨1, 1⟩) ∧
    ((∃ task, insistent.Told 8 0 ⟨2, 1⟩ task) ∧ (insistent 12).Begins 0 ⟨2, 1⟩ ∧
      ¬ (insistent 12).GoesOff 0 ⟨2, 1⟩ ∧ (insistent 13).Unlinks 0 ⟨2, 1⟩) ∧
    (∃ task, ticking.Told 17 0 ⟨1, 1⟩ task) ∧ (ticking 19).Fired 0 ⟨1, 1⟩ ∧
      (ticking 20).Unlinks 0 ⟨1, 1⟩ := by
  have hidle : ∃ task, insistent.Told 8 0 ⟨1, 1⟩ task := ⟨_, rfl, .inl rfl, _, _, rfl, rfl⟩
  have htimer : ∃ task, insistent.Told 8 0 ⟨2, 1⟩ task := ⟨_, rfl, .inr rfl, _, _, rfl, rfl⟩
  have hself : ∃ task, ticking.Told 17 0 ⟨1, 1⟩ task := ⟨_, rfl, .inr rfl, _, _, rfl, rfl⟩
  have hagain : (insistent 20).Begins 0 ⟨1, 1⟩ := rfl
  have hlast : (insistent 12).Begins 0 ⟨2, 1⟩ := rfl
  have hfired : (ticking 19).Fired 0 ⟨1, 1⟩ := rfl
  have hqueued : (ticking 19).world.task? 0 ⟨1, 1⟩ ≠ none := nofun
  obtain ⟨_, _, hturn, _⟩ := insistent.interrupt_final hidle.choose_spec
  obtain ⟨_, hoff, hturn', _⟩ := insistent.interrupt_final htimer.choose_spec
  obtain ⟨_, _, _, hreturn⟩ := ticking.interrupt_final hself.choose_spec
  exact ⟨⟨hidle, hagain, (hturn 20 (by decide) hagain).2.1⟩,
    ⟨htimer, hlast, hoff 12 (by decide), (hturn' 12 (by decide) hlast).2.1⟩,
    hself, hfired, (hreturn 19 (by decide) hfired hqueued).1⟩

end Course

end TaskLoop
