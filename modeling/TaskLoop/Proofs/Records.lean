import TaskLoop.Proofs.Departures

namespace TaskLoop

open scoped List

variable {a b c : Hole} {w : World} {q q' : Nat} {id id' : TaskId} {p : Process} {Q Q' : Queue} {task task' : Task} {t : TimerTask}

namespace Task

def schedule? : Task → Option (UInt64 × Option UInt64)
  | .timer t => some (t.deadline, t.interval)
  | _ => none

/-- A later record of a task: a timer has the same deadline and the same interval, and an interrupt is
not taken back. -/
structure OnSchedule (old new : Task) : Prop where
  schedule : new.schedule? = old.schedule?
  alive : new.alive = true → old.alive = true

variable {old mid new : Task}

theorem OnSchedule.refl (task : Task) : task.OnSchedule task := ⟨rfl, fun h => h⟩

theorem OnSchedule.trans (h : old.OnSchedule mid) (h' : mid.OnSchedule new) : old.OnSchedule new :=
  ⟨h'.schedule.trans h.schedule, fun halive => h.alive (h'.alive halive)⟩

theorem onSchedule_interrupted (h : old.interrupted? = some new) : old.OnSchedule new := by
  cases old with
  | watcher => cases h
  | idle | timer => cases h; exact ⟨rfl, nofun⟩
  | script => cases h; exact ⟨rfl, fun h => h⟩

theorem OnSchedule.timer (h : (Task.timer t).OnSchedule new) :
    ∃ t', new = .timer t' ∧ t'.deadline = t.deadline ∧ t'.interval = t.interval ∧
      (t'.alive = true → t.alive = true) := by
  cases new with
  | timer t' =>
    obtain ⟨hdeadline, hinterval⟩ := Prod.mk.inj (Option.some.inj h.schedule)
    exact ⟨t', rfl, hdeadline, hinterval, h.alive⟩
  | idle | script | watcher => cases h.schedule

end Task

theorem Task.tame_onSchedule : Tame OnSchedule where
  refl := .refl
  trans := .trans
  interrupted := onSchedule_interrupted
  idle _ _ := ⟨rfl, fun h => h⟩
  timer _ := ⟨rfl, fun h => h⟩
  script _ := ⟨rfl, fun h => h⟩

namespace World

theorem Aside.task? {w' : World} {T : Nat → Prop} (h : w.Aside T w') (q : Nat) (id : TaskId) :
    w'.task? q id = w.task? q id := by
  rw [World.task?, h.queue? q]
  rfl

theorem task?_setQueue_of_ne (hne : q ≠ q') (Q : Queue) (id : TaskId) :
    (w.setQueue q Q).task? q' id = w.task? q' id := by
  simp only [task?, queue?_setQueue_of_ne Q hne]

end World

theorem Activation.Light.firing? {f : Activation a b} (h : f.Light) : f.firing? = none := by
  cases f <;> trivial

namespace Pending

def firing : {a : Hole} → Pending a → List (Nat × TaskId)
  | _, .outermost => []
  | _, .cons f k => f.firing?.toList ++ k.firing

def Paired : {a : Hole} → Pending a → Prop
  | _, .outermost => True
  | _, .cons f k =>
    (∀ q id, f.firing? = some (q, id) → k.turns.head? = some (q, id)) ∧ k.Paired

variable {f : Activation a b}

theorem firing_cons (h : f.firing? = none) (k : Pending b) : (cons f k).firing = k.firing := by
  simp [firing, h]

theorem Paired.cons {k : Pending b} (h : k.Paired) (hf : f.firing? = none) :
    (Pending.cons f k).Paired :=
  ⟨fun q id hq => (by cases hf.symm.trans hq), h⟩

theorem Piled.firing {k : Pending c} {rs : List Task} {k' : Pending a} (h : k.Piled rs k') :
    k'.firing = k.firing := by
  induction h with
  | refl => rfl
  | cons light _ ih => rw [firing_cons light.firing?, ih]

theorem Piled.paired {k : Pending c} {rs : List Task} {k' : Pending a} (h : k.Piled rs k')
    (hk : k.Paired) : k'.Paired := by
  induction h with
  | refl => exact hk
  | cons light _ ih => exact ih.cons light.firing?

theorem Paired.firing_subset {k : Pending a} (h : k.Paired) : k.firing ⊆ k.turns := by
  induction k with
  | outermost => exact List.Subset.refl _
  | cons f k ih =>
    rintro ⟨q, id⟩ hm
    obtain hm | hm := List.mem_append.1 hm
    · exact mem_turns_cons (List.mem_of_head? (h.1 q id (Option.mem_toList.1 hm)))
    · exact mem_turns_cons (ih h.2 hm)

end Pending

namespace Control

variable {control : Control} {k : Pending c} {rs : List Task}

def firing : Control → List (Nat × TaskId)
  | .perform _ k => k.firing
  | .deliver _ k => k.firing
  | .unwind _ k => k.firing
  | _ => []

def Paired : Control → Prop
  | .perform _ k => k.Paired
  | .deliver _ k => k.Paired
  | .unwind _ k => k.Paired
  | _ => True

theorem Piled.firing (h : control.Piled k rs) : control.firing = k.firing := by
  cases control with
  | perform | deliver | unwind => exact Pending.Piled.firing h
  | answered | escaped | aborted => exact h.elim

theorem Piled.paired (h : control.Piled k rs) (hk : k.Paired) : control.Paired := by
  cases control with
  | perform | deliver | unwind => exact Pending.Piled.paired h hk
  | answered | escaped | aborted => exact h.elim

theorem Paired.firing_subset (h : control.Paired) : control.firing ⊆ control.turns := by
  cases control with
  | perform | deliver | unwind => exact Pending.Paired.firing_subset h
  | answered | escaped | aborted => exact List.Subset.refl _

end Control

def World.Due (w : World) (q : Nat) (id : TaskId) : Prop :=
  ∃ t, w.task? q id = some (.timer t) ∧ t.alive = true ∧ t.deadline ≤ w.now

namespace Process

/-- No callback of a timer is invoked, or that of a timer that is due, whose turn begins if this may
be. -/
inductive Strikes (w : World) (E : Prop) (k : Pending c) (p : Process) : Prop
  | hushed (firing : p.control.firing <+ k.firing) (paired : k.Paired → p.control.Paired)
  | due {q : Nat} {id : TaskId} (may : E) (due : w.Due q id)
      (firing : p.control.firing = (q, id) :: k.firing)
      (turns : p.control.turns = (q, id) :: k.turns) (paired : k.Paired → p.control.Paired)

variable {E : Prop}

theorem Strikes.push {f : Activation a b} {k : Pending b} (h : p.Strikes w E k) (hE : E → f.Light) :
    p.Strikes w True (.cons f k) := by
  cases h with
  | hushed firing paired =>
    exact .hushed (firing.trans (List.sublist_append_right ..)) fun hk => paired hk.2
  | due may due firing turns paired =>
    refine .due trivial due ?_ ?_ fun hk => paired hk.2
    · rw [firing, Pending.firing_cons (hE may).firing?]
    · rw [turns, Pending.turns_cons (hE may).turn?]

/-- A task whose turn begins invokes its callback at once, if it is a timer that is due. -/
theorem strikes_stepTask (hE : E) (queued : w.task? q id = some task) (walk : Walk)
    (k : Pending .pass) : ((w.modifyQueue q (·.enter id)).stepTask q id task
      (.cons (.turn q id walk) k)).Strikes w E k := by
  obtain ⟨s, hopens, hs⟩ := (w.modifyQueue q (·.enter id)).exists_opens q id task
  rw [hs]
  have hsteps : ∀ {p : Process} {a : Hole} {f : Activation a .verdict}, f.firing? = none →
      p.control.Over (.cons f (.cons (.turn q id walk) k)) → p.Strikes w E k := fun hf hover => by
    refine .hushed ?_ fun hk => hover.piled.paired ((hk.cons rfl).cons hf)
    rw [hover.piled.firing, Pending.firing_cons hf]
    exact .refl _
  cases hopens with
  | rests | ends | bites => exact .hushed (.refl _) fun hk => hk.cons rfl
  | calls t base =>
    exact hsteps (f := .script q id { t with ran := true } base) rfl World.over_callProtected
  | runs turned =>
    cases turned with
    | idle t rest verdict => exact hsteps (f := .idle verdict) rfl World.over_callBack
    | @watcher t _ callback => exact hsteps (f := .quiet t.name callback.onDrop) rfl World.over_callBack
    | timer alive due =>
      refine .due hE ⟨_, queued, alive, due⟩ World.over_callBack.piled.firing
        World.over_callBack.turns fun hk => World.over_callBack.piled.paired
          ⟨fun q' id' hq => ?_, hk.cons rfl⟩
      cases hq
      rfl

theorem Shifts.strikes {k : Pending c} {rs : List Task} (h : p.Shifts w E k rs) :
    p.Strikes w E k := by
  cases h with
  | piles stack => exact .hushed (stack.firing ▸ .refl _) stack.paired
  | @enters q id task walk k' may queued stack =>
    have hstrikes := strikes_stepTask may queued walk k'
    generalize World.stepTask _ q id task _ = p at hstrikes ⊢
    cases hstrikes with
    | hushed firing paired => exact .hushed (stack.firing ▸ firing) fun hk => paired (stack.paired hk)
    | due may due firing turns paired =>
      exact .due may due (stack.firing ▸ firing) (stack.turns ▸ turns) fun hk =>
        paired (stack.paired hk)
  | aborts aborted => exact .hushed (aborted ▸ List.nil_sublist _) fun _ => aborted ▸ trivial

theorem strikes_step (p : Process) : ∃ (c : Hole) (k : Pending c), p.control.firing = k.firing ∧
    p.control.turns = k.turns ∧ (p.control.Paired → k.Paired) ∧ p.step.Strikes p.world True k := by
  obtain ⟨w, control⟩ := p
  cases control with
  | perform action k => exact ⟨_, k, rfl, rfl, fun hk => hk, (w.shifts_perform action k).strikes⟩
  | deliver result k =>
    refine ⟨_, k, rfl, rfl, fun hk => hk, ?_⟩
    cases k with
    | outermost => exact .hushed (.refl _) fun _ => trivial
    | cons f k => rw [step_deliver]; exact (f.shifts_resume result w k).strikes.push fun hf => hf
  | unwind payload k =>
    refine ⟨_, k, rfl, rfl, fun hk => hk, ?_⟩
    cases k with
    | outermost => exact .hushed (.refl _) fun _ => trivial
    | cons f k => rw [step_unwind]; exact (f.shifts_unwind payload w k).strikes.push False.elim
  | answered | escaped | aborted =>
    exact ⟨_, .outermost, rfl, rfl, fun _ => trivial, .hushed (.refl _) fun _ => trivial⟩

theorem paired_step (hp : p.control.Paired) : p.step.control.Paired := by
  obtain ⟨c, k, _, _, hpaired, hstrikes⟩ := p.strikes_step
  cases hstrikes with
  | hushed _ paired => exact paired (hpaired hp)
  | due _ _ _ _ paired => exact paired (hpaired hp)

/-- The next transition invokes the callback of the timer: afterwards one more activation of it is on
the stack. -/
def GoesOff (p : Process) (q : Nat) (id : TaskId) : Prop :=
  p.control.firing.count (q, id) < p.step.control.firing.count (q, id)

instance (p : Process) (q : Nat) (id : TaskId) : Decidable (p.GoesOff q id) :=
  inferInstanceAs (Decidable (_ < _))

def Fired (p : Process) (q : Nat) (id : TaskId) : Prop := p.control.fired? = some (q, id)

theorem GoesOff.begins (hoff : p.GoesOff q id) : p.Begins q id ∧ p.world.Due q id := by
  obtain ⟨c, k, hfiring, hturns, _, hstrikes⟩ := p.strikes_step
  rw [GoesOff, hfiring] at hoff
  cases hstrikes with
  | hushed firing => exact absurd (firing.count_le _) (Nat.not_le.2 hoff)
  | due _ due firing turns =>
    rw [firing, List.count_cons] at hoff
    split at hoff
    · next he =>
      obtain ⟨rfl, rfl⟩ := Prod.mk.inj (beq_iff_eq.1 he)
      exact ⟨by rw [Begins, turns, hturns], due⟩
    · exact absurd hoff (Nat.lt_irrefl _)

theorem Begins.mem_firing (hbegins : p.Begins q id) (hdue : p.world.Due q id) :
    (q, id) ∈ p.step.control.firing := by
  obtain ⟨t, ht, halive, hlate⟩ := hdue
  have henters := hbegins.enters
  generalize p.step = p' at henters
  cases henters with
  | @intro task walk k queued =>
    obtain rfl := Option.some.inj (queued.symm.trans ht)
    have hnow : ¬ (p.world.modifyQueue q (·.enter id)).now < t.deadline := UInt64.not_lt.2 hlate
    rw [World.stepTask, World.stepTimer, if_neg (by simp [halive]), if_neg hnow,
      World.over_callBack.piled.firing]
    exact List.mem_cons_self ..

/-- A timer invokes its callback when its turn begins and it is due, and never else. -/
theorem Sound.goesOff_iff (h : p.Sound) (hp : p.control.Paired) :
    p.GoesOff q id ↔ p.Begins q id ∧ p.world.Due q id := by
  refine ⟨GoesOff.begins, fun ⟨hbegins, hdue⟩ => ?_⟩
  have hidle : (q, id) ∉ p.control.firing := fun hm =>
    h.not_mem_turns_of_begins hbegins id (hp.firing_subset hm)
  rw [GoesOff, List.count_eq_zero_of_not_mem hidle]
  exact List.count_pos_iff.2 (hbegins.mem_firing hdue)

end Process

namespace World

theorem timerFired_again {interval : UInt64} (hQ : w.queue? q = some Q)
    (hg : Q.get? id = some (.timer t)) (hinterval : t.interval = some interval)
    (halive : t.alive = true) (k : Pending .verdict) :
    w.timerFired q id k = (w.setQueue q (Q.modify id fun _ => .timer { t with
      deadline := w.nextDeadline Q.config.repeatPolicy t.deadline interval })).deliver k .again := by
  have hrecord : Q.record? id = some (.timer t) := by rw [Queue.record?, hg]; rfl
  simp only [timerFired, hQ, hrecord, hinterval, halive]

theorem timerFired_done (ht : w.task? q id = some (.timer t)) (h : t.interval = none ∨ t.alive = false)
    (k : Pending .verdict) : w.timerFired q id k = w.deliver k .done := by
  obtain ⟨Q, hQ, hg⟩ := task?_eq_some.1 ht
  have hrecord : Q.record? id = some (.timer t) := by rw [Queue.record?, hg]; rfl
  simp only [timerFired, hQ, hrecord]
  split
  · next interval hinterval halive => simp [hinterval, halive] at h
  · rfl

theorem task?_timerFired_of_ne (h : q' = q → id' = id → w.task? q id = none) (k : Pending .verdict) :
    (w.timerFired q id k).world.task? q' id' = w.task? q' id' := by
  unfold timerFired
  split
  · rfl
  · next Q hQ =>
    split
    · split
      · rw [deliver]
        by_cases hq : q = q'
        · subst hq
          rw [task?_setQueue hQ, task?_eq hQ, Queue.get?_modify]
          split
          · next he =>
            subst he
            rw [show Q.get? id' = none from (task?_eq hQ id').symm.trans (h rfl rfl)]
            rfl
          · rfl
        · exact task?_setQueue_of_ne hq _ id'
      · rfl
    · rfl

end World

namespace Process

/-- A record goes on in every transition, unless the callback of a timer has returned. -/
theorem Sound.upholds (h : p.Sound) (hfired : p.control.fired? = none)
    (ht : p.world.task? q id = some task) (ht' : p.step.world.task? q id = some task') :
    task.OnSchedule task' := by
  cases h.turnover_of_tame Task.tame_onSchedule (.inl hfired) with
  | steady world =>
    obtain ⟨new, hnew, hgoes⟩ | ⟨_, hgone⟩ := world.kept ht
    · exact Option.some.inj (hnew.symm.trans ht') ▸ hgoes
    · cases hgone.symm.trans ht'
  | @fires q' id' fires =>
    by_cases he : (q, id) = (q', id')
    · cases he
      obtain ⟨t, _, hold, hnew⟩ := fires.record
      obtain rfl := Option.some.inj (hold.symm.trans ht)
      obtain rfl := Option.some.inj (hnew.symm.trans ht')
      exact ⟨rfl, fun h => h⟩
    · rw [fires.others q id he, ht] at ht'
      exact Option.some.inj ht' ▸ .refl task

end Process

end TaskLoop
