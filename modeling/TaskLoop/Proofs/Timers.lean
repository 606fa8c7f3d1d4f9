import Mathlib
import TaskLoop.Proofs.Destruction
import TaskLoop.Proofs.Records

namespace TaskLoop

variable {w : World} {q i j l m n u : Nat} {id : TaskId} {p : Process} {s : Course} {Q : Queue}
  {task : Task} {t t' : TimerTask} {delay interval : UInt64} {repeats : Option UInt64}

/-- What the clock shows so many milliseconds after zero: it stops at its largest reading. -/
def reading (ms : Nat) : Nat := min ms (2 ^ 64 - 1)

theorem reading_saturatingAdd (a b : UInt64) :
    (saturatingAdd a b).toNat = reading (a.toNat + b.toNat) := saturatingAdd_toNat a b

theorem reading_le_saturatingAdd {ms : Nat} {a : UInt64} (h : reading ms ≤ a.toNat) (b : UInt64) :
    reading ms ≤ (saturatingAdd a b).toNat := by
  rw [reading_saturatingAdd]
  unfold reading at h ⊢
  omega

theorem reading_add_le_saturatingAdd {ms : Nat} {a : UInt64} (h : ms ≤ a.toNat) (b : UInt64) :
    reading (ms + b.toNat) ≤ (saturatingAdd a b).toNat := by
  rw [reading_saturatingAdd]
  unfold reading
  omega

theorem saturatingAdd_of_reading {ms : Nat} {a : UInt64} (h : a.toNat = reading ms) (b : UInt64) :
    (saturatingAdd a b).toNat = reading (ms + b.toNat) := by
  rw [reading_saturatingAdd, h]
  unfold reading
  omega

namespace Process

theorem Fired.eq_deliver (h : p.Fired q id) :
    ∃ (complaint : Option String) (k : Pending .verdict),
      p = p.world.deliver (.cons (.firing q id) k) complaint := by
  obtain ⟨w, control⟩ := p
  cases control with
  | deliver result k =>
    cases k with
    | outermost => cases h
    | cons f k =>
      cases f with
      | firing q' id' => cases h; exact ⟨result, k, rfl⟩
      | _ => cases h
  | perform | unwind | answered | escaped | aborted => cases h

theorem Fired.mem_firing (h : p.Fired q id) : (q, id) ∈ p.control.firing := by
  obtain ⟨complaint, k, hp⟩ := h.eq_deliver
  rw [hp]
  exact List.mem_cons_self ..

theorem Fired.step_eq (h : p.Fired q id) (hpaired : p.control.Paired) :
    ∃ walk, ∃ k : Pending .pass,
      p.control.turns = (q, id) :: k.turns ∧ k.Paired ∧
        p.step = p.world.timerFired q id (.cons (.turn q id walk) k) := by
  obtain ⟨complaint, k, hp⟩ := h.eq_deliver
  rw [hp] at hpaired
  obtain ⟨hhead, hbelow⟩ : (∀ q' id', some (q, id) = some (q', id') →
    k.turns.head? = some (q', id')) ∧ k.Paired := hpaired
  obtain ⟨q', id', walk, k', rfl⟩ := k.eq_turn
  obtain ⟨rfl, rfl⟩ := Prod.mk.inj (Option.some.inj (hhead q id rfl))
  refine ⟨walk, k', by rw [hp]; rfl, hbelow.2, ?_⟩
  rw [hp, World.deliver, step_deliver]
  rfl

/-- A callback that has returned is no longer on the stack. -/
theorem Fired.not_mem_firing (h : p.Fired q id) (hsound : p.Sound) (hpaired : p.control.Paired) :
    (q, id) ∉ p.step.control.firing := by
  obtain ⟨walk, k, hturns, hk, hstep⟩ := h.step_eq hpaired
  intro hm
  rw [hstep, (World.piled_timerFired ..).firing] at hm
  have hbelow : (q, id) ∈ k.turns := hk.firing_subset hm
  have hnodup := hsound.ready.nodup
  rw [hturns] at hnodup
  exact (List.nodup_cons.1 hnodup).1 (List.mem_map.2 ⟨(q, id), hbelow, rfl⟩)

theorem mem_firing_step (hm : (q, id) ∈ p.step.control.firing) :
    (q, id) ∈ p.control.firing ∨ p.GoesOff q id := by
  by_cases hbefore : (q, id) ∈ p.control.firing
  · exact .inl hbefore
  · right
    rw [GoesOff, List.count_eq_zero_of_not_mem hbefore]
    exact List.count_pos_iff.2 hm

end Process

theorem World.paired_begin (w : World) (command : Command) : (w.begin command).control.Paired :=
  begin_induction (motive := fun p => p.control.Paired) (fun _ => trivial) trivial
    (fun _ _ _ => Pending.Paired.cons (Pending.Paired.cons (k := .outermost) trivial rfl) rfl) command

namespace Course

theorem paired (s : Course) (i : Nat) : (s i).control.Paired := by
  induction i with
  | zero =>
    obtain ⟨start, queues, engines, h⟩ := s.starts
    rw [show s 0 = _ from h]
    trivial
  | succ i ih =>
    obtain hstep | ⟨_, command, hbegin⟩ := s.step_or_begin i
    · rw [hstep]
      exact Process.paired_step ih
    · rw [hbegin]
      exact World.paired_begin _ command

theorem not_mem_firing_of_not_mem_turns (h : (q, id) ∉ (s l).control.turns) :
    (q, id) ∉ (s l).control.firing := fun hm => h ((s.paired l).firing_subset hm)

theorem mem_firing_succ (hm : (q, id) ∈ (s (l + 1)).control.firing) :
    (q, id) ∈ (s l).control.firing ∨ (s l).GoesOff q id := by
  obtain hstep | ⟨_, command, hbegin⟩ := s.step_or_begin l
  · rw [hstep] at hm
    exact Process.mem_firing_step hm
  · have hturn := (s.paired (l + 1)).firing_subset hm
    rw [hbegin, World.turns_begin] at hturn
    cases hturn

theorem ended_of_fired (h : (s l).Fired q id) : (s l).control.ended = false := by
  obtain ⟨complaint, k, hp⟩ := h.eq_deliver
  rw [hp]
  rfl

theorem not_mem_firing_of_fired (h : (s l).Fired q id) : (q, id) ∉ (s (l + 1)).control.firing := by
  rw [succ_eq_step (ended_of_fired h)]
  exact h.not_mem_firing (s.sound l) (s.paired l)

theorem goesOff_iff : (s l).GoesOff q id ↔ (s l).Begins q id ∧ (s l).world.Due q id :=
  (s.sound l).goesOff_iff (s.paired l)

theorem mem_firing_of_goesOff (h : (s l).GoesOff q id) : (q, id) ∈ (s (l + 1)).control.firing := by
  have hgoes : (s l).control.ended = false := Bool.eq_false_iff.2 fun hended => by
    rw [Process.GoesOff, Process.step_of_ended hended] at h
    exact Nat.lt_irrefl _ h
  rw [succ_eq_step hgoes]
  exact List.count_pos_iff.1 (Nat.zero_lt_of_lt h)

theorem not_mem_turns_of_goesOff (h : (s l).GoesOff q id) : (q, id) ∉ (s l).control.turns :=
  (s.sound l).not_mem_turns_of_begins (goesOff_iff.1 h).1 id

def firings (s : Course) (q : Nat) (id : TaskId) (l : Nat) : Nat :=
  Nat.count (fun j => (s j).GoesOff q id) l

end Course

/-- A later record of a timer: it has its next deadline if its callback has returned, it repeats and it
is alive, and the same deadline otherwise. -/
inductive TimerTask.Goes (p : Process) (q : Nat) (id : TaskId) (t t' : TimerTask) : Prop
  | stays (deadline : t'.deadline = t.deadline) (interval : t'.interval = t.interval)
      (alive : t'.alive = true → t.alive = true)
      (idle : p.Fired q id → t.interval = none ∨ t.alive = false)
  | moves {interval : UInt64} {Q : Queue} (fired : p.Fired q id) (alive : t.alive = true)
      (repeats : t.interval = some interval) (queue : p.world.queue? q = some Q)
      (eq : t' = { t with
        deadline := p.world.nextDeadline Q.config.repeatPolicy t.deadline interval })

theorem TimerTask.Goes.interval_eq (h : t.Goes p q id t') : t'.interval = t.interval := by
  cases h with
  | stays _ interval => exact interval
  | moves _ _ _ _ eq => rw [eq]

namespace Process

theorem Sound.timer_goes (h : p.Sound) (hpaired : p.control.Paired)
    (ht : p.world.task? q id = some (.timer t)) (ht' : p.step.world.task? q id = some task) :
    ∃ t', task = .timer t' ∧ t.Goes p q id t' := by
  by_cases hfired : p.Fired q id
  · obtain ⟨walk, k, _, _, hstep⟩ := hfired.step_eq hpaired
    rw [hstep] at ht'
    obtain ⟨Q, hQ, hg⟩ := World.task?_eq_some.1 ht
    have hdone : t.interval = none ∨ t.alive = false → ∃ t', task = .timer t' ∧ t.Goes p q id t' := by
      intro hidle
      rw [World.timerFired_done ht hidle] at ht'
      obtain rfl := Option.some.inj (ht.symm.trans ht')
      exact ⟨t, rfl, .stays rfl rfl (fun h => h) fun _ => hidle⟩
    cases hinterval : t.interval with
    | none => exact hdone (.inl hinterval)
    | some interval =>
      cases halive : t.alive with
      | false => exact hdone (.inr halive)
      | true =>
        rw [World.timerFired_again hQ hg hinterval halive, World.deliver, World.task?_setQueue hQ,
          Queue.get?_modify, if_pos rfl, hg] at ht'
        obtain rfl := Option.some.inj ht'
        exact ⟨_, rfl, .moves hfired halive hinterval hQ rfl⟩
  · have hgoes : (Task.timer t).OnSchedule task := by
      cases hother : p.control.fired? with
      | none => exact h.upholds hother ht ht'
      | some timer =>
        -- the callback of another timer has returned
        obtain ⟨q', id'⟩ := timer
        have hfired' : p.Fired q' id' := hother
        obtain ⟨walk, k, _, _, hstep⟩ := hfired'.step_eq hpaired
        rw [hstep, World.task?_timerFired_of_ne, ht] at ht'
        · obtain rfl := Option.some.inj ht'
          exact .refl _
        · rintro rfl rfl
          exact absurd hfired' hfired
    obtain ⟨t', rfl, hdeadline, hinterval, halive⟩ := hgoes.timer
    exact ⟨t', rfl, .stays hdeadline hinterval halive fun hf => absurd hf hfired⟩

end Process

namespace Course

theorem goes (ht : (s l).world.task? q id = some (.timer t))
    (ht' : (s (l + 1)).world.task? q id = some task) :
    ∃ t', task = .timer t' ∧ t.Goes (s l) q id t' := by
  obtain hstep | ⟨hended, command, hbegin⟩ := s.step_or_begin l
  · rw [hstep] at ht'
    exact (s.sound l).timer_goes (s.paired l) ht ht'
  · obtain ⟨Q, hQ, hg⟩ := World.task?_eq_some.1 ht'
    rw [hbegin] at hQ
    obtain rfl := Option.some.inj
      ((World.task?_eq_some.2 ⟨Q, World.queue?_begin hQ, hg⟩).symm.trans ht)
    refine ⟨t, rfl, .stays rfl rfl (fun h => h) fun hfired => ?_⟩
    cases (ended_of_fired hfired).symm.trans hended

def StartsTimer (s : Course) (i q : Nat) (id : TaskId) (delay : UInt64) (repeats : Option UInt64) :
    Prop :=
  ∃ name fires onDrop k,
    (s i).control = .perform (.queue q (.timer name delay repeats fires onDrop)) k ∧
      (s (i + 1)).control = .deliver (Reply.task id) k

theorem StartsTimer.pushed (h : s.StartsTimer i q id delay repeats) :
    ∃ t, s.Pushed (i + 1) q id (.timer t) ∧ t.deadline = saturatingAdd (s i).world.now delay ∧
      t.interval = repeats := by
  obtain ⟨name, fires, onDrop, k, hperform, hreply⟩ := h
  have hsucc : s (i + 1) = (s i).world.perform (.queue q (.timer name delay repeats fires onDrop)) k := by
    rw [succ_eq_step (by rw [hperform]; rfl), Process.step, hperform]
  cases hQ : (s i).world.queue? q with
  | none =>
    rw [hsucc, World.perform, hQ] at hreply
    cases hreply
  | some Q =>
    simp only [World.perform, hQ, World.performOnQueue, World.start] at hsucc
    generalize ht : (⟨name, saturatingAdd (s i).world.now delay, repeats, fires, true, onDrop⟩ :
      TimerTask) = t at hsucc
    have hwf := ((s.sound i).queues q Q hQ).tasks
    have hid : id = (Q.tasks.insert (.timer t)).1 := by
      rw [hsucc, World.push, hQ] at hreply
      cases hreply
      rfl
    refine ⟨t, ⟨?_, fun j hj => Option.eq_none_iff_forall_ne_some.2 fun task hqueued => ?_⟩,
      by rw [← ht], by rw [← ht]⟩
    · rw [hsucc, World.deliver, (World.aside_named (T := fun _ => True) _ name q _).task?,
        World.task?_eq (World.queue?_push hQ _), hid]
      exact Arena.get?_insert_self hwf _
    · -- an id is not given again to another task
      obtain ⟨Q₀, hQ₀, hmoves⟩ := moves (Nat.le_of_lt_succ hj) hQ
      have hg := (World.task?_eq hQ₀ id).symm.trans hqueued
      have hknown := hmoves.known ((s.sound j).queues q Q₀ hQ₀) (Arena.known_of_get? hg)
      exact Arena.fst_insert_ne hwf hknown _ hid.symm

/-- A timer that is queued was queued before, since it was pushed. -/
theorem Pushed.goes_of_succ (h : s.Pushed m q id (.timer t)) (hml : m ≤ l)
    (ht' : (s (l + 1)).world.task? q id = some task) :
    ∃ old new, (s l).world.task? q id = some (.timer old) ∧ task = .timer new ∧
      old.Goes (s l) q id new := by
  obtain ⟨task₀, ht₀⟩ := Option.ne_none_iff_exists'.1 fun hgone => by
    cases (task?_eq_none hml (Nat.le_succ l) h.queued hgone).symm.trans ht'
  cases task₀ with
  | timer old =>
    obtain ⟨new, rfl, hgoes⟩ := goes ht₀ ht'
    exact ⟨old, new, ht₀, rfl, hgoes⟩
  | idle | script | watcher => cases kind_eq h.queued hml ht₀

namespace StartsTimer

variable (h : s.StartsTimer i q id delay repeats)

include h

theorem interval_eq (hil : i < l) (ht : (s l).world.task? q id = some task) :
    ∃ t, task = .timer t ∧ t.interval = repeats := by
  obtain ⟨t₀, hpushed, _, hinterval⟩ := h.pushed
  induction hil generalizing task with
  | refl =>
    obtain rfl := Option.some.inj (hpushed.queued.symm.trans ht)
    exact ⟨t₀, rfl, hinterval⟩
  | step hil ih =>
    obtain ⟨old, new, hold, rfl, hgoes⟩ := hpushed.goes_of_succ hil ht
    obtain ⟨_, heq, hrepeats⟩ := ih hold
    cases heq
    exact ⟨new, rfl, hgoes.interval_eq.trans hrepeats⟩

/-- A timer is due no earlier than its delay says, and neither does its callback run any earlier. -/
theorem not_early (hil : i < l) :
    (∀ t, (s l).world.task? q id = some (.timer t) →
      reading ((s i).world.now.toNat + delay.toNat) ≤ t.deadline.toNat) ∧
    ((q, id) ∈ (s l).control.firing →
      reading ((s i).world.now.toNat + delay.toNat) ≤ (s l).world.now.toNat) := by
  obtain ⟨t₀, hpushed, hdeadline, _⟩ := h.pushed
  induction hil with
  | refl =>
    refine ⟨fun t ht => ?_, fun hm => ?_⟩
    · cases hpushed.queued.symm.trans ht
      rw [hdeadline, reading_saturatingAdd]
    · exact absurd hm (not_mem_firing_of_not_mem_turns hpushed.not_mem_turns)
  | @step l hil ih =>
    obtain ⟨hqueued, hfiring⟩ := ih
    have hnow := s.now_le (Nat.le_succ l)
    refine ⟨fun t' ht' => ?_, fun hm => ?_⟩
    · obtain ⟨old, new, hold, heq, hgoes⟩ := hpushed.goes_of_succ hil ht'
      cases heq
      cases hgoes with
      | stays deadline => rw [deadline]; exact hqueued old hold
      | @moves interval Q fired _ _ _ eq =>
        -- the next deadline is after the last one, or after the clock at the end of the callback
        have hdeadline := hqueued old hold
        have hclock := hfiring fired.mem_firing
        rw [eq]
        unfold World.nextDeadline
        dsimp only
        split
        · exact reading_le_saturatingAdd hdeadline interval
        · exact reading_le_saturatingAdd hclock interval
    · obtain hm | hoff := mem_firing_succ hm
      · exact (hfiring hm).trans hnow
      · obtain ⟨_, t, ht, _, hlate⟩ := goesOff_iff.1 hoff
        exact ((hqueued t ht).trans (UInt64.le_iff_toNat_le.1 hlate)).trans hnow

end StartsTimer

theorem repeatPolicy_eq {policy : RepeatPolicy} (hij : i ≤ j)
    (hpolicy : ∀ Q, (s i).world.queue? q = some Q → Q.config.repeatPolicy = policy)
    (hQ : (s j).world.queue? q = some Q) : Q.config.repeatPolicy = policy := by
  obtain ⟨Q₀, hQ₀, hmoves⟩ := moves hij hQ
  rw [hmoves.config ((s.sound i).queues q Q₀ hQ₀), hpolicy Q₀ hQ₀]

/-- Up to this moment the callback of the timer always goes on until it returns. -/
def CallbackReturns (s : Course) (q : Nat) (id : TaskId) (n : Nat) : Prop :=
  ∀ l < n, (q, id) ∈ (s l).control.firing → (q, id) ∈ (s (l + 1)).control.firing ∨ (s l).Fired q id

instance (s : Course) (q : Nat) (id : TaskId) (n : Nat) : Decidable (s.CallbackReturns q id n) :=
  inferInstanceAs (Decidable (∀ l < n, _ → _ ∨ (s l).control.fired? = _))

theorem CallbackReturns.of_le (h : s.CallbackReturns q id n) (hln : l ≤ n) :
    s.CallbackReturns q id l := fun j hj => h j (Nat.lt_of_lt_of_le hj hln)

namespace StartsTimer

variable (h : s.StartsTimer i q id delay repeats)

include h

theorem firings_eq_zero : s.firings q id (i + 1) = 0 := by
  obtain ⟨t₀, hpushed, _⟩ := h.pushed
  refine Nat.count_iff_forall_not.2 fun j hj hoff => ?_
  obtain ⟨_, t, ht, _⟩ := goesOff_iff.1 hoff
  cases (hpushed.first j hj).symm.trans ht

/-- If deadlines follow from deadlines, that of a timer that is alive depends on nothing but how often
its callback has returned. -/
theorem deadline_eq
    (hpolicy : ∀ Q, (s i).world.queue? q = some Q → Q.config.repeatPolicy = .fromDeadline)
    (hil : i < l) (hreturns : s.CallbackReturns q id l) :
    ∃ n, s.firings q id l = n + (if (q, id) ∈ (s l).control.firing then 1 else 0) ∧
      ∀ t, (s l).world.task? q id = some (.timer t) → t.alive = true →
        t.deadline.toNat =
          reading ((s i).world.now.toNat + delay.toNat + n * (repeats.getD 0).toNat) := by
  obtain ⟨t₀, hpushed, hdeadline, _⟩ := h.pushed
  induction hil with
  | refl =>
    refine ⟨0, ?_, fun t ht _ => ?_⟩
    · rw [h.firings_eq_zero, if_neg (not_mem_firing_of_not_mem_turns hpushed.not_mem_turns)]
    · cases hpushed.queued.symm.trans ht
      rw [hdeadline, reading_saturatingAdd, Nat.zero_mul, Nat.add_zero]
  | @step l hil ih =>
    obtain ⟨n, hcount, hqueued⟩ := ih (hreturns.of_le (Nat.le_succ l))
    have hsucc : s.firings q id (l + 1) = s.firings q id l + if (s l).GoesOff q id then 1 else 0 :=
      Nat.count_succ _ l
    by_cases hfired : (s l).Fired q id
    · -- one more callback has returned, and a timer that is alive has its next deadline
      refine ⟨n + 1, ?_, fun t' ht' halive' => ?_⟩
      · have hoff : ¬ (s l).GoesOff q id := fun hoff =>
          not_mem_firing_of_fired hfired (mem_firing_of_goesOff hoff)
        rw [hsucc, hcount, if_neg hoff, if_pos hfired.mem_firing,
          if_neg (not_mem_firing_of_fired hfired)]
      · obtain ⟨old, new, hold, heq, hgoes⟩ := hpushed.goes_of_succ hil ht'
        cases heq
        obtain ⟨_, heq, hinterval⟩ := h.interval_eq hil hold
        cases heq
        cases hgoes with
        | stays deadline _ alive idle =>
          have hnone := (idle hfired).resolve_right (by simp [alive halive'])
          rw [deadline, hqueued old hold (alive halive'), ← hinterval, hnone]
          rfl
        | @moves interval Q _ alive repeats queue eq =>
          have hdeadline' := saturatingAdd_of_reading (hqueued old hold alive) interval
          rw [eq, repeatPolicy_eq (Nat.le_of_lt hil) hpolicy queue]
          rw [World.nextDeadline, hdeadline', ← hinterval, repeats]
          rw [Nat.add_mul, Nat.one_mul, Nat.add_assoc _ (n * _)]
          rfl
    · refine ⟨n, ?_, fun t' ht' halive' => ?_⟩
      · by_cases hoff : (s l).GoesOff q id
        · rw [hsucc, hcount, if_pos hoff, if_pos (mem_firing_of_goesOff hoff),
            if_neg (not_mem_firing_of_not_mem_turns (not_mem_turns_of_goesOff hoff))]
        · have hsame : (q, id) ∈ (s (l + 1)).control.firing ↔ (q, id) ∈ (s l).control.firing :=
            ⟨fun hm => (mem_firing_succ hm).resolve_right hoff,
              fun hm => (hreturns l (Nat.lt_succ_self l) hm).resolve_right hfired⟩
          rw [hsucc, hcount, if_neg hoff, Nat.add_zero]
          simp only [hsame]
      · obtain ⟨old, new, hold, heq, hgoes⟩ := hpushed.goes_of_succ hil ht'
        cases heq
        cases hgoes with
        | stays deadline _ alive => rw [deadline]; exact hqueued old hold (alive halive')
        | moves fired => exact absurd fired hfired

/-- If deadlines follow from the clock, a timer is due again no earlier than its interval says after its
callback has returned. -/
theorem deadline_le (hrepeats : repeats = some interval)
    (hpolicy : ∀ Q, (s i).world.queue? q = some Q → Q.config.repeatPolicy = .fromNow)
    (hfired : (s u).Fired q id) (hul : u < l) (ht : (s l).world.task? q id = some (.timer t))
    (halive : t.alive = true) :
    reading ((s u).world.now.toNat + interval.toNat) ≤ t.deadline.toNat := by
  obtain ⟨t₀, hpushed, _⟩ := h.pushed
  have hiu : i < u := hpushed.le_of_turn ((s.paired u).firing_subset hfired.mem_firing)
  have hmoves : ∀ {l old new}, u ≤ l → (s l).world.task? q id = some (.timer old) →
      old.Goes (s l) q id new → (s l).Fired q id → new.alive = true →
      reading ((s u).world.now.toNat + interval.toNat) ≤ new.deadline.toNat := by
    intro l old new hul hold hgoes hfired halive
    have hil := Nat.lt_of_lt_of_le hiu hul
    obtain ⟨_, heq, hinterval⟩ := h.interval_eq hil hold
    cases heq
    rw [hrepeats] at hinterval
    cases hgoes with
    | stays _ _ alive idle => simp [hinterval, alive halive] at idle; exact absurd hfired idle
    | @moves _ Q _ _ repeats queue eq =>
      obtain rfl := Option.some.inj (hinterval.symm.trans repeats)
      rw [eq, repeatPolicy_eq (Nat.le_of_lt hil) hpolicy queue]
      exact reading_add_le_saturatingAdd (s.now_le hul) interval
  induction hul generalizing t with
  | refl =>
    obtain ⟨old, new, hold, heq, hgoes⟩ := hpushed.goes_of_succ hiu ht
    cases heq
    exact hmoves (Nat.le_refl u) hold hgoes hfired halive
  | @step l hul ih =>
    have hil := Nat.lt_trans hiu hul
    obtain ⟨old, new, hold, heq, hgoes⟩ := hpushed.goes_of_succ hil ht
    cases heq
    by_cases hagain : (s l).Fired q id
    · exact hmoves (Nat.le_of_lt hul) hold hgoes hagain halive
    · cases hgoes with
      | stays deadline _ alive => rw [deadline]; exact ih hold (alive halive)
      | moves fired => exact absurd fired hagain

/-- A timer that does not repeat is done when its callback has returned. -/
theorem leaves_of_goesOff (hrepeats : repeats = none) (hoff : (s l).GoesOff q id) (hlj : l < j)
    (hreturns : s.CallbackReturns q id j) :
    (q, id) ∈ (s j).control.firing ∨ (s j).Completes q id ∨ (s j).world.task? q id = none := by
  obtain ⟨t₀, hpushed, _⟩ := h.pushed
  have hil : i < l := by
    obtain ⟨_, t, ht, _⟩ := goesOff_iff.1 hoff
    exact hpushed.le_of_queued ht
  induction hlj with
  | refl => exact .inl (mem_firing_of_goesOff hoff)
  | @step j hlj ih =>
    have hij := Nat.lt_trans hil hlj
    have hgone : (s j).world.task? q id = none → (s (j + 1)).world.task? q id = none :=
      task?_eq_none hij (Nat.le_succ j) hpushed.queued
    obtain hfiring | hcompletes | hnone := ih (hreturns.of_le (Nat.le_succ j))
    · obtain hgoes | hfired := hreturns j (Nat.lt_succ_self j) hfiring
      · exact .inl hgoes
      · right
        cases ht : (s j).world.task? q id with
        | none => exact .inr (hgone ht)
        | some task =>
          obtain ⟨t, rfl, hinterval⟩ := h.interval_eq hij ht
          obtain ⟨walk, k, _, _, hstep⟩ := hfired.step_eq (s.paired j)
          rw [World.timerFired_done ht (.inl (hinterval.trans hrepeats)),
            ← succ_eq_step (ended_of_fired hfired)] at hstep
          exact .inl ⟨walk, k, by rw [hstep]; rfl⟩
    · have hgoes : (s j).control.ended = false := by
        obtain ⟨walk, k, hp⟩ := hcompletes
        rw [hp]
        rfl
      rw [succ_eq_step hgoes]
      exact .inr (.inr ((s.sound j).task?_of_leaves (.inr hcompletes)))
    · exact .inr (.inr (hgone hnone))

theorem task?_after (hrepeats : repeats = none) (hoff : (s l).GoesOff q id) (hlj : l < j)
    (hreturns : s.CallbackReturns q id j) (hidle : (q, id) ∉ (s j).control.turns) :
    (s j).world.task? q id = none := by
  obtain hfiring | hcompletes | hnone := h.leaves_of_goesOff hrepeats hoff hlj hreturns
  · exact absurd ((s.paired j).firing_subset hfiring) hidle
  · exact absurd hcompletes.ends.mem_turns hidle
  · exact hnone

theorem goesOff_unique (hrepeats : repeats = none) (hreturns : s.CallbackReturns q id n) (hl : l ≤ n)
    (hj : j ≤ n) (hoff : (s l).GoesOff q id) (hoff' : (s j).GoesOff q id) : l = j := by
  have hlt : ∀ {l j}, j ≤ n → (s l).GoesOff q id → (s j).GoesOff q id → ¬ l < j := by
    intro l j hj hoff hoff' hlj
    obtain ⟨_, t, ht, _⟩ := goesOff_iff.1 hoff'
    cases ht.symm.trans
      (h.task?_after hrepeats hoff hlj (hreturns.of_le hj) (not_mem_turns_of_goesOff hoff'))
  exact Nat.le_antisymm (Nat.not_lt.1 (hlt hl hoff' hoff)) (Nat.not_lt.1 (hlt hj hoff hoff'))

end StartsTimer

/-- A turn ends before it can begin again. -/
theorem ends_between (hm : (q, id) ∈ (s l).control.turns) (hlj : l ≤ j)
    (hidle : (q, id) ∉ (s j).control.turns) (halive : (s j).control ≠ .aborted) :
    ∃ d, l ≤ d ∧ d < j ∧ (s d).Ends q id := by
  induction hlj with
  | refl => exact absurd hm hidle
  | @step j hlj ih =>
    have halive' := alive_of_le halive (Nat.le_succ j)
    by_cases hturn : (q, id) ∈ (s j).control.turns
    · refine ⟨j, hlj, Nat.lt_succ_self j, ?_⟩
      obtain hstep | ⟨hended, _⟩ := s.step_or_begin j
      · rw [hstep] at hidle halive
        exact ((Process.mem_turns_of_step hturn).resolve_left hidle).resolve_right halive
      · rw [Process.turns_of_ended hended] at hturn
        cases hturn
    · obtain ⟨d, hld, hdj, hends⟩ := ih hturn halive'
      exact ⟨d, hld, Nat.lt_succ_of_lt hdj, hends⟩

theorem ends_of_goesOff (hoff : (s l).GoesOff q id) (hlj : l < j) (hoff' : (s j).GoesOff q id) :
    ∃ d, l < d ∧ d < j ∧ (s d).Ends q id := by
  have hturn := (s.paired (l + 1)).firing_subset (mem_firing_of_goesOff hoff)
  exact ends_between hturn hlj (not_mem_turns_of_goesOff hoff') (goesOff_iff.1 hoff').1.ne_aborted

/-- The turn of a timer is over soon after its callback has returned. -/
theorem not_mem_turns_of_fired (hfired : (s u).Fired q id) :
    (q, id) ∉ (s (u + 2)).control.turns := by
  obtain ⟨walk, k, _, _, hstep⟩ := hfired.step_eq (s.paired u)
  obtain ⟨w₁, verdict, heq, _⟩ := World.timerFired_eq (s u).world q id (.cons (.turn q id walk) k)
  rw [heq, ← succ_eq_step (ended_of_fired hfired)] at hstep
  have hends : (s (u + 1)).Ends q id := ⟨walk, k, .inl ⟨verdict, by rw [hstep]; rfl⟩⟩
  rw [succ_eq_step (by rw [hstep]; rfl)]
  exact (s.sound (u + 1)).not_mem_turns_of_ends hends

/-- A timer that was started with a delay never fires before the delay has passed, and in one turn it
fires at most once. If it does not repeat, it fires at most once at all, and when the turn in which it
has fired is over, which it is soon after the callback has returned, the timer is no longer queued. If
deadlines follow from deadlines, that of a timer that is alive is the first one and an interval for each
time it has fired, and the timer fires in its turn just when the clock has come to that deadline. If they
follow from the clock, an interval passes from the end of a callback to the next firing. -/
theorem timer_schedule (s : Course) (h : s.StartsTimer i q id delay repeats)
    (hreturns : s.CallbackReturns q id n) :
    (∀ l, (s l).GoesOff q id →
      reading ((s i).world.now.toNat + delay.toNat) ≤ (s l).world.now.toNat) ∧
    (∀ l j, l < j → (s l).GoesOff q id → (s j).GoesOff q id → ∃ d, l < d ∧ d < j ∧ (s d).Ends q id) ∧
    (repeats = none →
      (∀ l j, l ≤ n → j ≤ n → (s l).GoesOff q id → (s j).GoesOff q id → l = j) ∧
      (∀ l j, l < j → j ≤ n → (s l).GoesOff q id → (q, id) ∉ (s j).control.turns →
        (s j).world.task? q id = none) ∧
      ∀ u, (s u).Fired q id → (q, id) ∉ (s (u + 2)).control.turns) ∧
    ∀ Q, (s i).world.queue? q = some Q →
      (Q.config.repeatPolicy = .fromDeadline → ∀ l, i < l → l ≤ n →
        (∀ t, (s l).world.task? q id = some (.timer t) → t.alive = true →
          (q, id) ∉ (s l).control.firing → t.deadline.toNat = reading ((s i).world.now.toNat +
            delay.toNat + s.firings q id l * (repeats.getD 0).toNat)) ∧
        ((s l).Begins q id → ((s l).GoesOff q id ↔
          (∃ t, (s l).world.task? q id = some (.timer t) ∧ t.alive = true) ∧
            reading ((s i).world.now.toNat + delay.toNat +
              s.firings q id l * (repeats.getD 0).toNat) ≤ (s l).world.now.toNat))) ∧
      (Q.config.repeatPolicy = .fromNow → ∀ interval, repeats = some interval → ∀ u l, u < l →
        (s u).Fired q id → (s l).GoesOff q id →
        reading ((s u).world.now.toNat + interval.toNat) ≤ (s l).world.now.toNat) := by
  have hstarted : ∀ {l}, (s l).GoesOff q id → i < l := fun hoff => by
    obtain ⟨t₀, hpushed, _⟩ := h.pushed
    obtain ⟨_, t, ht, _⟩ := goesOff_iff.1 hoff
    exact hpushed.le_of_queued ht
  refine ⟨fun l hoff => ?_, fun l j hlj hoff => ends_of_goesOff hoff hlj, fun hrepeats =>
    ⟨fun l j => h.goesOff_unique hrepeats hreturns, fun l j hlj hj hoff =>
      h.task?_after hrepeats hoff hlj (hreturns.of_le hj), fun u => not_mem_turns_of_fired⟩,
    fun Q hQ => ⟨fun hpolicy l hil hln => ?_, fun hpolicy interval hrepeats u l hul hfired hoff => ?_⟩⟩
  · obtain ⟨_, t, ht, _, hlate⟩ := goesOff_iff.1 hoff
    exact ((h.not_early (hstarted hoff)).1 t ht).trans (UInt64.le_iff_toNat_le.1 hlate)
  · have hsame : ∀ Q', (s i).world.queue? q = some Q' → Q'.config.repeatPolicy = .fromDeadline :=
      fun Q' hQ' => Option.some.inj (hQ.symm.trans hQ') ▸ hpolicy
    obtain ⟨m, hcount, hdeadline⟩ := h.deadline_eq hsame hil (hreturns.of_le hln)
    have hidle : (q, id) ∉ (s l).control.firing → s.firings q id l = m := fun hm => by
      rw [hcount, if_neg hm]
      rfl
    refine ⟨fun t ht halive hm => by rw [hidle hm]; exact hdeadline t ht halive, fun hbegins => ?_⟩
    have hm := not_mem_firing_of_not_mem_turns ((s.sound l).not_mem_turns_of_begins hbegins id)
    rw [goesOff_iff, hidle hm]
    constructor
    · rintro ⟨_, t, ht, halive, hlate⟩
      refine ⟨⟨t, ht, halive⟩, ?_⟩
      rw [← hdeadline t ht halive]
      exact UInt64.le_iff_toNat_le.1 hlate
    · rintro ⟨⟨t, ht, halive⟩, hlate⟩
      rw [← hdeadline t ht halive] at hlate
      exact ⟨hbegins, t, ht, halive, UInt64.le_iff_toNat_le.2 hlate⟩
  · have hsame : ∀ Q', (s i).world.queue? q = some Q' → Q'.config.repeatPolicy = .fromNow :=
      fun Q' hQ' => Option.some.inj (hQ.symm.trans hQ') ▸ hpolicy
    obtain ⟨_, t, ht, halive, hlate⟩ := goesOff_iff.1 hoff
    exact (h.deadline_le hrepeats hsame hfired hul ht halive).trans (UInt64.le_iff_toNat_le.1 hlate)

/-- A timer fires late and moves the clock itself, so that it fires again in the next pass; then it is
interrupted by its own callback. -/
def ticking : Course :=
  .ofCommands [{}] []
    [.act (.queue 0 (.timer "T" 5 (some 3) [[.advance 10], [.queue 0 (.interrupt "T")]] none)),
      .act (.advance 7), .act (.queue 0 .runPass), .act (.queue 0 .runPass)]

theorem timer_schedule_ticking :
    ticking.StartsTimer 1 0 ⟨1, 1⟩ 5 (some 3) ∧ ticking.CallbackReturns 0 ⟨1, 1⟩ 24 ∧
    (ticking 7).GoesOff 0 ⟨1, 1⟩ ∧ (ticking 16).GoesOff 0 ⟨1, 1⟩ ∧
    5 ≤ (ticking 7).world.now.toNat ∧ (∃ d, 7 < d ∧ d < 16 ∧ (ticking d).Ends 0 ⟨1, 1⟩) ∧
    ∃ t, (ticking 16).world.task? 0 ⟨1, 1⟩ = some (.timer t) ∧ t.alive = true ∧
      t.deadline.toNat = 8 := by
  have hstarts : ticking.StartsTimer 1 0 ⟨1, 1⟩ 5 (some 3) := ⟨_, _, _, .outermost, rfl, rfl⟩
  obtain ⟨hreturns, hfirst, hsecond, hfirings, hidle⟩ : ticking.CallbackReturns 0 ⟨1, 1⟩ 24 ∧
      (ticking 7).GoesOff 0 ⟨1, 1⟩ ∧ (ticking 16).GoesOff 0 ⟨1, 1⟩ ∧
      ticking.firings 0 ⟨1, 1⟩ 16 = 1 ∧ (0, ⟨1, 1⟩) ∉ (ticking 16).control.firing := by
    decide +kernel
  obtain ⟨hearly, hends, _, hpolicy⟩ := ticking.timer_schedule hstarts hreturns
  obtain ⟨hdeadline, _⟩ := (hpolicy _ rfl).1 rfl 16 (by decide) (by decide)
  obtain ⟨_, t, ht, halive, _⟩ := goesOff_iff.1 hsecond
  refine ⟨hstarts, hreturns, hfirst, hsecond, hearly 7 hfirst, hends 7 16 (by decide) hfirst hsecond,
    t, ht, halive, ?_⟩
  rw [hdeadline t ht halive hidle, hfirings]
  rfl

end Course

end TaskLoop
