import TaskLoop.Proofs.Frame
import TaskLoop.Proofs.Handles
import TaskLoop.Proofs.Turnover

namespace TaskLoop

open scoped List

variable {w : World} {q i j n : Nat} {id : TaskId} {p : Process} {s : Course}

namespace Process

def Invokes (p : Process) (q : Nat) (id : TaskId) : Prop :=
  p.control.ringing.count (q, id) < p.step.control.ringing.count (q, id)

theorem Sound.invokes_iff (h : p.Sound) :
    p.Invokes q id ↔ p.step.Fires p.world p.control.ringing q id := by
  constructor
  · intro hinvokes
    cases h.turnover with
    | steady world rings => exact absurd (rings.count_le _) (Nat.not_le.2 hinvokes)
    | @fires q' id' fires =>
      rw [Invokes, fires.rings, List.count_cons] at hinvokes
      split at hinvokes
      · next he =>
        obtain ⟨rfl, rfl⟩ := Prod.mk.inj (beq_iff_eq.1 he)
        exact fires
      · exact absurd hinvokes (Nat.lt_irrefl _)
  · intro hfires
    rw [Invokes, hfires.rings, List.count_cons_self]
    exact Nat.lt_succ_self _

/-- What a transition makes of a task: nothing, or it is pushed, or leaves, or invokes its callback. -/
theorem Sound.face_step (h : p.Sound) (q : Nat) (id : TaskId) :
    p.step.world.face q id = p.world.face q id ∨
      p.world.face q id = none ∧ p.step.world.face q id ≠ some (some false) ∨
      p.Leaves q id ∧ p.step.world.face q id = none ∨
      p.Invokes q id ∧ p.world.face q id = some (some true) ∧
        p.step.world.face q id = some (some false) := by
  cases h.turnover with
  | steady world =>
    cases ht : p.world.task? q id with
    | none =>
      refine .inr (.inl ⟨by rw [World.face, ht]; rfl, fun hv => ?_⟩)
      obtain ⟨task', ht', hpending⟩ := Option.map_eq_some_iff.1 hv
      obtain ⟨task, hfresh, hgoes⟩ := world.fresh ht ht'
      exact hfresh.pending? (hgoes.symm.trans hpending)
    | some task =>
      obtain ⟨task', ht', hgoes⟩ | ⟨hleaves, hgone⟩ := world.kept ht
      · exact .inl (by rw [World.face_of_task? ht', World.face_of_task? ht, hgoes])
      · exact .inr (.inr (.inl ⟨hleaves, by rw [World.face, hgone]; rfl⟩))
  | @fires q' id' fires =>
    by_cases he : (q, id) = (q', id')
    · obtain ⟨rfl, rfl⟩ := Prod.mk.inj he
      exact .inr (.inr (.inr ⟨h.invokes_iff.2 fires, fires.before, fires.after⟩))
    · exact .inl (by rw [World.face, fires.others q id he]; rfl)

theorem Sound.pending_of_step (h : p.Sound) (hknown : p.world.face q id ≠ none)
    (hv : p.step.world.face q id = some (some true)) : p.world.face q id = some (some true) := by
  obtain he | ⟨hn, _⟩ | ⟨_, hn⟩ | ⟨_, hbefore, _⟩ := h.face_step q id
  · exact he ▸ hv
  · exact absurd hn hknown
  · cases hn.symm.trans hv
  · exact hbefore

/-- A watcher whose callback is pending is not in the middle of its step: its turn is on the stack
only if it has just given its verdict, to wait. -/
def Unrung (p : Process) : Prop :=
  ∀ q id, (q, id) ∈ p.control.turns → p.world.face q id = some (some true) →
    ∃ walk k, p = p.world.deliver (.cons (.turn q id walk) k) .again

theorem face_ne_none_of_running {task : Task} (h : p.Sound) (hrunning : p.world.Running q id)
    (ht : p.step.world.task? q id = some task) : p.world.face q id ≠ none := by
  obtain ⟨old, hold, _⟩ := h.task?_origin_run (n := 1) hrunning (by rw [run_succ, run_zero]; exact ht)
  rw [World.face, hold]
  exact Option.some_ne_none _

theorem Sound.unrung_step (h : p.Sound) (hp : p.Unrung) : p.step.Unrung := by
  intro q id hm hv
  obtain ⟨task, ht, _⟩ := Option.map_eq_some_iff.1 hv
  obtain hm' | hbegins := Process.mem_turns_step hm
  · -- a turn that goes on was about to end
    have hknown := face_ne_none_of_running h (h.ready.running hm') ht
    obtain ⟨walk, k, hwaits⟩ := hp q id hm' (h.pending_of_step hknown hv)
    have hr := h.ready
    rw [hwaits] at hr hm
    rw [World.deliver, step_deliver, Activation.resume, (World.piled_endTurn ..).turns] at hm
    exact absurd hm ((Pending.Ready.fits hr).2 id)
  · have henters := hbegins.enters
    generalize hstep : p.step = p' at henters hv
    cases henters with
    | @intro task walk k queued turns =>
      have hknown : p.world.face q id ≠ none := by
        rw [World.face, queued]
        exact Option.some_ne_none _
      have hpending := h.pending_of_step hknown (hstep ▸ hv)
      rw [World.face, queued] at hpending
      cases task with
      | idle | timer | script => cases hpending
      | watcher t =>
        obtain heq | ⟨hnone, _⟩ | hfires := World.stepWatcher_cases walk k h.queues queued rfl
        · rw [heq]
          exact ⟨walk, k, rfl⟩
        · simp [Task.pending?, hnone] at hpending
        · cases hfires.after.symm.trans hv

end Process

theorem World.queue?_begin_dropQueue (w : World) (q : Nat) :
    (w.begin (.dropQueue q)).world.queue? q = none := by
  refine Option.eq_none_iff_forall_ne_some.2 fun Q hQ => ?_
  have hQ' := queue?_begin hQ
  simp only [begin, dropQueue] at hQ
  split at hQ
  · next hnone => cases hnone.symm.trans hQ'
  · simp only [deliver, queue?, Option.join_eq_some_iff] at hQ
    simp [Array.getElem?_setIfInBounds] at hQ

theorem World.queue?_begin_eq (w : World) (command : Command) (q : Nat) :
    (w.begin command).world.queue? q = w.queue? q ∨
      command = .dropQueue q ∧ (w.begin command).world.queue? q = none := by
  cases hQ : (w.begin command).world.queue? q with
  | some Q => exact .inl (queue?_begin hQ).symm
  | none =>
    cases command with
    | act action => exact .inl hQ.symm
    | dropQueue q' =>
      by_cases hq : q' = q
      · exact .inr ⟨by rw [hq], rfl⟩
      · left
        simp only [begin, dropQueue] at hQ
        split at hQ
        · exact hQ.symm
        · rw [← hQ]
          simp [deliver, queue?, Array.getElem?_setIfInBounds_ne hq]

theorem World.turns_begin (w : World) (command : Command) :
    (w.begin command).control.turns = [] :=
  begin_induction (motive := fun p => p.control.turns = []) (fun _ => rfl) rfl (fun _ _ _ => rfl) command

namespace Course

def Drops (s : Course) (i q : Nat) : Prop :=
  (s i).control.ended = true ∧ s (i + 1) = (s i).world.begin (.dropQueue q)

/-- What becomes of a task next: nothing, or it is pushed, or leaves, or invokes its callback. -/
theorem face_succ (s : Course) (i q : Nat) (id : TaskId) :
    (s (i + 1)).world.face q id = (s i).world.face q id ∨
      (s i).world.face q id = none ∧ (s (i + 1)).world.face q id ≠ some (some false) ∨
      ((s i).Leaves q id ∨ s.Drops i q) ∧ (s (i + 1)).world.face q id = none ∨
      (s i).Invokes q id ∧ (s i).world.face q id = some (some true) ∧
        (s (i + 1)).world.face q id = some (some false) := by
  obtain hstep | ⟨hended, command, hbegin⟩ := s.step_or_begin i
  · rw [hstep]
    exact ((s.sound i).face_step q id).imp_right (Or.imp_right (Or.imp_left (And.imp_left .inl)))
  · obtain hqueue | ⟨rfl, hqueue⟩ := World.queue?_begin_eq (s i).world command q
    · left
      rw [hbegin, World.face, World.task?, hqueue]
      rfl
    · refine .inr (.inr (.inl ⟨.inr ⟨hended, hbegin⟩, ?_⟩))
      rw [hbegin, World.face, World.task?, hqueue]
      rfl

theorem unrung (s : Course) (i : Nat) : (s i).Unrung := by
  induction i with
  | zero =>
    obtain ⟨start, queues, engines, h⟩ := s.starts
    intro q id hm
    rw [show s 0 = _ from h] at hm
    cases hm
  | succ i ih =>
    obtain hstep | ⟨_, command, hbegin⟩ := s.step_or_begin i
    · rw [hstep]
      exact (s.sound i).unrung_step ih
    · intro q id hm
      rw [hbegin, World.turns_begin] at hm
      cases hm

theorem invoked (h : (s i).world.face q id = some (some false)) : ∃ j < i, (s j).Invokes q id := by
  induction i with
  | zero =>
    obtain ⟨start, queues, engines, hstart⟩ := s.starts
    obtain ⟨task, ht, _⟩ := Option.map_eq_some_iff.1 h
    obtain ⟨Q, hQ, hg⟩ := World.task?_eq_some.1 ht
    rw [show s 0 = _ from hstart] at hQ
    obtain ⟨config, rfl⟩ := World.queue?_make hQ
    simp [Queue.get?, Arena.get?_empty] at hg
  | succ i ih =>
    obtain he | ⟨_, hne⟩ | ⟨_, hn⟩ | ⟨hinvokes, _⟩ := s.face_succ i q id
    · obtain ⟨j, hj, hinvokes⟩ := ih (he ▸ h)
      exact ⟨j, Nat.lt_succ_of_lt hj, hinvokes⟩
    · exact absurd h hne
    · cases hn.symm.trans h
    · exact ⟨i, Nat.lt_succ_self i, hinvokes⟩

theorem succ_of_invokes (h : (s i).Invokes q id) : s (i + 1) = (s i).step := by
  cases hended : (s i).control.ended with
  | false => exact succ_eq_step hended
  | true =>
    rw [Process.Invokes, Process.step_of_ended hended] at h
    exact absurd h (Nat.lt_irrefl _)

theorem fires_of_invokes (h : (s i).Invokes q id) :
    (s (i + 1)).Fires (s i).world (s i).control.ringing q id := by
  rw [succ_of_invokes h]
  exact (s.sound i).invokes_iff.1 h

theorem face_after_invokes (h : (s i).Invokes q id) (hij : i < j) :
    (s j).world.face q id = some (some false) ∨ (s j).world.face q id = none := by
  have hfires := fires_of_invokes h
  obtain ⟨task, ht, _⟩ := Option.map_eq_some_iff.1 hfires.before
  induction hij with
  | refl => exact .inl hfires.after
  | @step j hij ih =>
    obtain hv | hn := ih
    · obtain he | ⟨hn, _⟩ | ⟨_, hn⟩ | ⟨_, hv', _⟩ := s.face_succ j q id
      · exact .inl (he.trans hv)
      · cases hn.symm.trans hv
      · exact .inr hn
      · cases hv'.symm.trans hv
    · right
      have hgone := task?_eq_none (Nat.le_of_lt hij) (Nat.le_succ j) ht (Option.map_eq_none_iff.1 hn)
      rw [World.face, hgone]
      rfl

theorem invokes_unique (hi : (s i).Invokes q id) (hj : (s j).Invokes q id) : i = j := by
  have hlt : ∀ {i j}, (s i).Invokes q id → (s j).Invokes q id → ¬ i < j := fun hi hj hij => by
    have hbefore := (fires_of_invokes hj).before
    obtain hv | hn := face_after_invokes hi hij
    · cases hbefore.symm.trans hv
    · cases hbefore.symm.trans hn
  exact Nat.le_antisymm (Nat.not_lt.1 (hlt hj hi)) (Nat.not_lt.1 (hlt hi hj))

/-- A watcher leaves its queue by a removal, with its queue, or when it is done after its callback was
invoked. -/
theorem watcher_leaves {t : WatcherTask} (ht : (s i).world.task? q id = some (.watcher t))
    (hgone : (s (i + 1)).world.task? q id = none) :
    (s i).Removes q id ∨ s.Drops i q ∨
      (s i).Completes q id ∧ ∃ j < i, (s j).Invokes q id := by
  have hv : (s i).world.face q id = some (some t.callback.isSome) := by
    rw [World.face, ht]
    rfl
  have hn : (s (i + 1)).world.face q id = none := by
    rw [World.face, hgone]
    rfl
  obtain he | ⟨hn', _⟩ | ⟨hleaves, _⟩ | ⟨_, _, hv'⟩ := s.face_succ i q id
  · cases (he.symm.trans hn).symm.trans hv
  · cases hn'.symm.trans hv
  · obtain (hremoves | hcompletes) | hdrops := hleaves
    · exact .inl hremoves
    · refine .inr (.inr ⟨hcompletes, ?_⟩)
      obtain ⟨walk, k, hdone⟩ := hcompletes
      cases hcallback : t.callback with
      | none => exact invoked (by rw [hv, hcallback]; rfl)
      | some callback =>
        -- with its callback pending the watcher would have given the other verdict
        have hturn : (q, id) ∈ (s i).control.turns := by
          rw [hdone]
          exact List.mem_cons_self ..
        obtain ⟨walk', k', hagain⟩ := s.unrung i q id hturn (by rw [hv, hcallback]; rfl)
        rw [hdone] at hagain
        cases hagain
    · exact .inr (.inl hdrops)
  · cases hn.symm.trans hv'

theorem face_watcher {b : Bool} (h : w.face q id = some (some b)) :
    ∃ t, w.task? q id = some (.watcher t) := by
  obtain ⟨task, ht, hb⟩ := Option.map_eq_some_iff.1 h
  cases task with
  | watcher t => exact ⟨t, ht⟩
  | idle | timer | script => cases hb

theorem watcher_left {t : WatcherTask} (hij : i ≤ j) (ht : (s i).world.task? q id = some (.watcher t))
    (hgone : (s j).world.task? q id = none) :
    ∃ l < j, (∃ t, (s l).world.task? q id = some (.watcher t)) ∧
      (s (l + 1)).world.task? q id = none := by
  have hface : (s i).world.face q id = some (some t.callback.isSome) := by
    rw [World.face, ht]
    rfl
  suffices (∃ b, (s j).world.face q id = some (some b)) ∨ ∃ l < j,
      (∃ t, (s l).world.task? q id = some (.watcher t)) ∧ (s (l + 1)).world.task? q id = none by
    refine this.resolve_left ?_
    rintro ⟨b, hb⟩
    rw [World.face, hgone] at hb
    cases hb
  clear hgone
  induction hij with
  | refl => exact .inl ⟨_, hface⟩
  | @step j _ ih =>
    obtain ⟨b, hb⟩ | ⟨l, hl, hleft⟩ := ih
    · obtain he | ⟨hn, _⟩ | ⟨_, hn⟩ | ⟨_, _, hv⟩ := s.face_succ j q id
      · exact .inl ⟨b, he.trans hb⟩
      · cases hn.symm.trans hb
      · exact .inr ⟨j, Nat.lt_succ_self j, face_watcher hb, Option.map_eq_none_iff.1 hn⟩
      · exact .inl ⟨false, hv⟩
    · exact .inr ⟨l, Nat.lt_succ_of_lt hl, hleft⟩

end Course

namespace Process

/-- A run of a queue that was asked for on top of a stack: passes are made, the run has its outcome, or
a payload leaves it. Only an empty queue is reported as drained. -/
inductive Drains (q : Nat) (k : Pending .reply) : Process → Prop
  | passing {p : Process} (stack : p.control.Upon (.cons (.drain q) (.cons .runReply k))) : Drains q k p
  | ran {w : World} {r : RunOutcome} (rest : r = .drained → w.order q = []) :
      Drains q k (w.deliver (.cons .runReply k) r)
  | replied {w : World} {r : RunOutcome} (rest : r = .drained → w.order q = []) :
      Drains q k (w.deliver k (.outcome r))
  | unwinds {w : World} {payload : Payload} : Drains q k (w.unwind payload (.cons .runReply k))
  | escapes {p : Process} (depth : p.control.depth ≤ k.depth)
      (nothing : ∀ (w : World) reply, p ≠ w.deliver k reply) : Drains q k p

variable {k : Pending .reply}

theorem drains_drainOn (hk : (Pending.cons .runReply k).Ready w) :
    (w.drainOn q (.cons .runReply k)).Drains q k := by
  unfold World.drainOn
  split
  · next hQ => exact .ran fun _ => World.order_eq_nil hQ
  · next Q hQ =>
    split
    · exact .ran fun h => by cases h
    · split
      · next hempty => exact .ran fun _ => (World.order_eq hQ).trans (List.isEmpty_iff.1 hempty)
      · have hdrain : (Pending.cons (.drain q) (.cons .runReply k)).Ready w := hk.cons trivial
        exact .passing ((w.walks_startPass q _).sequel (I := fun _ _ => True) (T := fun _ => True)
          hdrain (fun _ _ _ => trivial) fun _ _ _ _ _ => trivial).stack.upon

theorem Sound.drains_step (h : p.Sound) (hp : p.Drains q k) (hdepth : k.depth < p.control.depth) :
    p.step.Drains q k := by
  cases hp with
  | passing stack =>
    cases Process.holds stack (by decide) with
    | above _ stays =>
      obtain hupon | haborted := stays
      · exact .passing hupon
      · refine .escapes (by rw [haborted]; exact Nat.zero_le _) fun w reply he => ?_
        rw [he] at haborted
        cases haborted
    | result w r =>
      rw [World.deliver, step_deliver]
      exact drains_drainOn (Pending.Ready.tail (f := .drain q) h.ready rfl)
    | payload w payload =>
      rw [World.unwind, step_unwind]
      exact .unwinds
  | @ran w r rest =>
    rw [World.deliver, step_deliver]
    exact .replied rest
  | replied => exact absurd hdepth (Nat.lt_irrefl _)
  | @unwinds w payload =>
    rw [World.unwind, step_unwind]
    exact .escapes (Nat.le_refl _) fun _ _ h => by cases h
  | escapes depth => exact absurd hdepth (Nat.not_lt.2 depth)

/-- A run that returns that the queue is drained leaves it empty. -/
theorem Sound.order_of_drained (h : p.Sound) (hcontrol : p.control = .perform (.queue q .runOnce) k)
    (hn : 0 < n) (hinside : ∀ i < n, 0 < i → k.depth < (p.run i).control.depth)
    (hends : p.run n = w.deliver k (.outcome .drained)) :
    (∃ Q, p.world.queue? q = some Q) ∧ w.order q = [] := by
  -- without the queue the action would have been answered at once, and otherwise
  obtain ⟨Q, hQ⟩ : ∃ Q, p.world.queue? q = some Q := by
    refine Option.ne_none_iff_exists'.1 fun hQ => ?_
    have hstep : p.run 1 = p.world.deliver k .noQueue := by
      rw [run_succ, run_zero, Process.step, hcontrol]
      simp only [World.perform, hQ]
    obtain rfl | hone := Nat.eq_or_lt_of_le hn
    · cases hstep.symm.trans hends
    · have hdepth := hinside 1 hone Nat.one_pos
      rw [hstep] at hdepth
      exact absurd hdepth (Nat.lt_irrefl _)
  have hstart : p.step.Drains q k := by
    have hr := h.ready
    rw [hcontrol] at hr
    have hreply : (Pending.cons .runReply k).Ready p.world := hr.cons trivial
    rw [Process.step, hcontrol]
    simp only [World.perform, hQ, World.performOnQueue, World.startRun]
    split
    · exact .ran fun h => by cases h
    · exact drains_drainOn hreply
  have hrun : ∀ i ≤ n, 0 < i → (p.run i).Drains q k := by
    intro i hi hpos
    induction i with
    | zero => cases hpos
    | succ i ih =>
      rw [run_succ_step]
      cases i with
      | zero => exact hstart
      | succ i =>
        exact (h.run (i + 1)).drains_step (ih (Nat.le_of_succ_le hi) (Nat.succ_pos i))
          (hinside (i + 1) hi (Nat.succ_pos i))
  have hlast := hrun n (Nat.le_refl n) hn
  rw [hends] at hlast
  refine ⟨⟨Q, hQ⟩, ?_⟩
  generalize hp : w.deliver k (.outcome .drained) = p' at hlast
  cases hlast with
  | passing stack =>
    rw [← hp] at stack
    exact absurd stack.depth_le (Nat.not_le.2 (Nat.lt_succ_of_lt (Nat.lt_succ_self _)))
  | ran => cases hp
  | replied rest => cases hp; exact rest rfl
  | unwinds => cases hp
  | escapes _ nothing => exact absurd hp.symm (nothing w _)

end Process

namespace Course

theorem drained {m : Nat} {k : Pending .reply}
    (hcontrol : (s i).control = .perform (.queue q .runOnce) k) (him : i < m)
    (hinside : ∀ l < m, i < l → k.depth < (s l).control.depth)
    (hends : s m = w.deliver k (.outcome .drained)) :
    (∀ l < m, ¬ s.Drops l q) ∧ (s m).world.order q = [] := by
  obtain ⟨n, rfl⟩ := Nat.exists_eq_add_of_lt him
  have hgoes : ∀ l < n + 1, (s (i + l)).control.ended = false := fun l hl => by
    cases hl₀ : l with
    | zero => rw [Nat.add_zero, hcontrol]; rfl
    | succ l' =>
      have hdepth := hinside (i + l) (by omega) (by omega)
      rw [← hl₀]
      cases hc : (s (i + l)).control with
      | perform | deliver | unwind | aborted => rfl
      | answered | escaped => rw [hc] at hdepth; cases hdepth
  have hrun : ∀ l ≤ n + 1, s (i + l) = (s i).run l := fun l hl =>
    add_eq_run fun l' hl' => hgoes l' (Nat.lt_of_lt_of_le hl' hl)
  obtain ⟨⟨Q, hQ⟩, horder⟩ := (s.sound i).order_of_drained (n := n + 1) (w := w) hcontrol
    (Nat.succ_pos n) (fun l hl hpos => by
      rw [← hrun l (Nat.le_of_lt hl)]
      exact hinside (i + l) (by omega) (by omega)) (by rw [← hrun (n + 1) (Nat.le_refl _)]; exact hends)
  -- during the run no command is given, and a queue that was dropped before is not there to be run
  refine ⟨fun l hl hdrops => ?_, by rw [hends]; exact horder⟩
  by_cases hil : i ≤ l
  · obtain ⟨l', rfl⟩ := Nat.exists_eq_add_of_le hil
    have hended := hdrops.1
    rw [hgoes l' (by omega)] at hended
    cases hended
  · obtain ⟨Q', hQ', _⟩ := moves (Nat.succ_le_of_lt (Nat.lt_of_not_le hil)) hQ
    rw [hdrops.2, World.queue?_begin_dropQueue] at hQ'
    cases hQ'

/-- The callback of a watcher is invoked at most once, when all queued tasks are watchers and it is the
running one. A watcher leaves its queue only by a removal, with the queue, or when it is done after its
callback was invoked. So when a run returns that the queue is drained, every watcher that was queued
and not removed has invoked its callback just once. -/
theorem watcher_barrier (s : Course) (q : Nat) (id : TaskId) :
    (∀ i j, (s i).Invokes q id → (s j).Invokes q id → i = j) ∧
    (∀ i, (s i).Invokes q id → ∃ Q, (s (i + 1)).world.queue? q = some Q ∧ Q.current = some id ∧
      Q.Watches id ∧ ∀ id' ∈ Q.order, Q.Watches id') ∧
    (∀ i t, (s i).world.task? q id = some (.watcher t) → (s (i + 1)).world.task? q id = none →
      (s i).Removes q id ∨ s.Drops i q ∨ (s i).Completes q id ∧ ∃ j < i, (s j).Invokes q id) ∧
    ∀ i j m k t (w : World), (s i).control = .perform (.queue q .runOnce) k → i < m →
      (∀ l < m, i < l → k.depth < (s l).control.depth) → s m = w.deliver k (.outcome .drained) →
      j ≤ m → (s j).world.task? q id = some (.watcher t) → (∀ l < m, ¬ (s l).Removes q id) →
      ∃! l, l < m ∧ (s l).Invokes q id := by
  refine ⟨fun i j => invokes_unique, fun i hinvokes => ?_, fun i t => watcher_leaves,
    fun i j m k t w hcontrol him hinside hends hjm ht hkept => ?_⟩
  · have hfires := fires_of_invokes hinvokes
    obtain ⟨Q, hQ, hcurrent, hall⟩ := hfires.queue
    have hafter := hfires.after
    obtain ⟨t, ht⟩ := face_watcher hafter
    obtain ⟨Q', hQ', hg⟩ := World.task?_eq_some.1 ht
    obtain rfl := Option.some.inj (hQ.symm.trans hQ')
    exact ⟨Q, hQ, hcurrent, ⟨_, hg, rfl⟩, hall⟩
  · obtain ⟨hdrops, hempty⟩ := drained hcontrol him hinside hends
    have hgone : (s m).world.task? q id = none := by
      rw [World.task?_eq_none_iff (s.sound m).queues, hempty]
      exact List.not_mem_nil
    obtain ⟨l, hl, ⟨t', ht'⟩, hleft⟩ := watcher_left hjm ht hgone
    obtain hremoves | hdropped | ⟨_, l', hl', hinvokes⟩ := watcher_leaves ht' hleft
    · exact absurd hremoves (hkept l hl)
    · exact absurd hdropped (hdrops l hl)
    · exact ⟨l', ⟨Nat.lt_trans hl' hl, hinvokes⟩, fun _ h => invokes_unique h.2 hinvokes⟩

/-- A watcher that pushes a task waits for one whose step asks for another watcher. -/
def overlapping : Course :=
  .ofCommands [{}] []
    [.act (.queue 0 (.interruptAll "W" [.queue 0 (.idle "B" [] none)] none)),
      .act (.queue 0 (.idle "A" [⟨[.queue 0 (.interruptAll "V" [] none)], .done⟩] none)),
      .act (.queue 0 .runOnce)]

theorem watcher_barrier_overlapping :
    (overlapping 19).Invokes 0 ⟨1, 1⟩ ∧
    (∃ Q, (overlapping 20).world.queue? 0 = some Q ∧ Q.current = some ⟨1, 1⟩ ∧
      Q.Watches ⟨1, 1⟩ ∧ ∀ id' ∈ Q.order, Q.Watches id') ∧
    (overlapping 25).world.task? 0 ⟨1, 1⟩ = none ∧ (overlapping 24).Completes 0 ⟨1, 1⟩ ∧
    overlapping 30 = (overlapping 30).world.deliver .outermost (.outcome .drained) ∧
    ∃! l, l < 30 ∧ (overlapping l).Invokes 0 ⟨1, 1⟩ := by
  obtain ⟨_, hmoment, hleaves, hdrained⟩ := overlapping.watcher_barrier 0 ⟨1, 1⟩
  have hinvokes : (overlapping 19).Invokes 0 ⟨1, 1⟩ := by
    rw [Process.Invokes]
    decide +kernel
  have hkept : ∀ l < 30, ¬ (overlapping l).Removes 0 ⟨1, 1⟩ := by
    have hall : ∀ l < 30, (overlapping l).control.action?.bind Action.removed? = none := by
      decide +kernel
    exact fun l hl => Process.not_removes (hall l hl)
  have hgone : (overlapping 25).world.task? 0 ⟨1, 1⟩ = none := by cbv
  have hcontrol : (overlapping 30).control = .deliver (.outcome .drained : Hole.reply.Result)
      .outermost := by cbv
  have hends : overlapping 30 = (overlapping 30).world.deliver .outermost
      (.outcome .drained) := Process.eq_deliver hcontrol
  have hrung : (overlapping 24).world.face 0 ⟨1, 1⟩ = some (some false) := by decide +kernel
  have hpending : (overlapping 7).world.face 0 ⟨1, 1⟩ = some (some true) := by decide +kernel
  obtain ⟨t, ht⟩ := face_watcher hrung
  obtain ⟨t₀, ht₀⟩ := face_watcher hpending
  refine ⟨hinvokes, hmoment 19 hinvokes, hgone, ?_, hends, ?_⟩
  · obtain hremoves | hdrops | hcompletes := hleaves 24 t ht hgone
    · exact absurd hremoves (hkept 24 (by decide))
    · exact absurd hdrops.1 (by decide +kernel)
    · exact hcompletes.1
  · exact hdrained 7 7 30 .outermost t₀ (overlapping 30).world (by cbv) (by decide)
      (by decide +kernel) hends (by decide) ht₀ hkept

end Course

end TaskLoop
