import TaskLoop.Proofs.Cancellation
import TaskLoop.Proofs.Walk

namespace TaskLoop

variable {c : Hole} {q : Nat} {id : TaskId} {p : Process}

namespace Process

/-- What ran on top of the stack gives it a result, or a payload comes down to it. -/
def Back (k : Pending c) (p : Process) : Prop :=
  (∃ result, p.control = .deliver result k) ∨ ∃ payload, p.control = .unwind payload k

theorem Back.turns {k : Pending c} (h : p.Back k) : p.control.turns = k.turns := by
  obtain ⟨_, h⟩ | ⟨_, h⟩ := h <;> rw [h] <;> rfl

theorem Back.ne_aborted {k : Pending c} (h : p.Back k) : p.control ≠ .aborted := by
  obtain ⟨_, h⟩ | ⟨_, h⟩ := h <;> simp [h]

theorem stays_run {k : Pending c} {m : Nat} (hc : c ≠ .reply)
    (hupon : p.control.Upon k) (hback : ∀ l < m, ¬ (p.run l).Back k) :
    (p.run m).Stays k := by
  induction m with
  | zero => exact .inl hupon
  | succ m ih =>
    rw [run_succ_step]
    obtain hupon' | haborted := ih fun l hl => hback l (by omega)
    · have hholds := holds hupon' hc
      have hnot := hback m (by omega)
      generalize p.run m = p' at hholds hnot
      cases hholds with
      | above deeper stays => exact stays
      | result w result => exact absurd (.inl ⟨result, rfl⟩) hnot
      | payload w payload => exact absurd (.inr ⟨payload, rfl⟩) hnot
    · right
      rw [step_of_isOver]
      · exact haborted
      · rw [isOver, haborted]

/-- A queue marks a task as running if and only if its turn is on the stack. -/
theorem Sound.current_eq_some_iff (h : p.Sound) (hended : p.control ≠ .aborted) :
    p.world.current q = some id ↔ (q, id) ∈ p.control.turns := by
  constructor
  · intro hcurrent
    obtain ⟨Q, hQ, hc⟩ := Option.bind_eq_some_iff.1 hcurrent
    exact h.ready.marks hQ hc hended
  · intro hm
    obtain ⟨Q, hQ, hc, _⟩ := h.ready.running hm
    rw [World.current_eq hQ, hc]

theorem Sound.current_congr {p' : Process} (h : p.Sound) (h' : p'.Sound)
    (hended : p.control ≠ .aborted) (hended' : p'.control ≠ .aborted)
    (hturns : p'.control.turns = p.control.turns) (q : Nat) :
    p'.world.current q = p.world.current q := by
  apply Option.ext
  intro id
  rw [h'.current_eq_some_iff hended', h.current_eq_some_iff hended, hturns]

/-- What is performed over a stack leaves all marks as they were when it comes back to the stack. -/
theorem Sound.current_of_back {action : Action} {k' : Pending .reply} {k : Pending c} {m : Nat}
    (h : p.Sound) (hp : p.control = .perform action k') (hover : k.Over k')
    (hback : (p.run m).Back k) (q : Nat) : (p.run m).world.current q = p.world.current q := by
  apply h.current_congr (h.run m)
  · simp [hp]
  · exact hback.ne_aborted
  · rw [hback.turns, hp]
    exact hover.turns.symm

/-- The step of a task is entered with the task marked, and it stays marked until the step gives its
verdict or is left by a payload. -/
theorem Sound.current_of_begins_run (h : p.Sound) (hbegins : p.Begins q id) :
    ∃ task walk k, p.world.task? q id = some task ∧
      p.step = (p.world.modifyQueue q (·.enter id)).stepTask q id task (.cons (.turn q id walk) k) ∧
      ∀ m, (∀ l < m, ¬ (p.step.run l).Back (Pending.cons (.turn q id walk) k)) →
        (p.step.run m).world.current q = some id ∨ (p.step.run m).control = .aborted := by
  have henters := hbegins.enters
  generalize hnext : p.step = p' at henters
  have hsound : p'.Sound := hnext ▸ h.step.2
  cases henters with
  | @intro task walk k queued turns =>
    refine ⟨task, walk, k, queued, rfl, fun m hback => ?_⟩
    have hupon := (World.stepping_enter queued walk k).upon
    have hverdict : Hole.verdict ≠ .reply := by decide
    obtain hstill | haborted := stays_run hverdict hupon hback
    · left
      apply ((hsound.run m).current_eq_some_iff hstill.ne_aborted).2
      exact hstill.turns.subset (List.mem_cons_self ..)
    · exact .inr haborted

/-- A queue has one active step at most. The tasks that are marked as running are those whose turns
are on the stack, no two of them in one queue. An action or a callback leaves the marks of all queues
as it found them, whether it returns or is left by a payload. A turn comes on the stack only when the
step of its task is entered; no other step of the queue is active then, and the task is marked until
the step ends. A run inside a step of its queue changes nothing. -/
theorem Reachable.single_active_step (h : p.Reachable) :
    (p.control ≠ .aborted → ∀ q id, p.world.current q = some id ↔ (q, id) ∈ p.control.turns) ∧
    (p.control.turns.map Prod.fst).Nodup ∧
    (∀ action k m, p.control = .perform action k → (p.run m).Back k →
      ∀ q, (p.run m).world.current q = p.world.current q) ∧
    (∀ action rest complaint k m,
      p.control = .perform action (.cons (.routine action rest complaint) k) → (p.run m).Back k →
      ∀ q, (p.run m).world.current q = p.world.current q) ∧
    (∀ q id, (q, id) ∈ p.step.control.turns → (q, id) ∈ p.control.turns ∨ p.Begins q id) ∧
    (∀ q id, p.Begins q id → (∀ id', (q, id') ∉ p.control.turns) ∧
      ∃ task walk k, p.world.task? q id = some task ∧
        p.step =
          (p.world.modifyQueue q (·.enter id)).stepTask q id task (.cons (.turn q id walk) k) ∧
        ∀ m, (∀ l < m, ¬ (p.step.run l).Back (Pending.cons (.turn q id walk) k)) →
          (p.step.run m).world.current q = some id ∨ (p.step.run m).control = .aborted) ∧
    ∀ q action k, p.control = .perform (.queue q action) k →
      (Action.queue q action).run? = some q → (p.world.current q).isSome →
      (∃ (a : Hole) (f : Activation a .reply) (result : a.Result),
        p.run 1 = p.world.deliver (.cons f k) result) ∧
      p.run 2 = p.world.deliver k action.ignored := by
  have hsound := h.sound
  refine ⟨fun hended q id => hsound.current_eq_some_iff hended, hsound.ready.nodup, ?_, ?_,
    fun q id => mem_turns_step, ?_, ?_⟩
  · intro action k m hp hback
    exact hsound.current_of_back hp .refl hback
  · intro action rest complaint k m hp hback
    exact hsound.current_of_back hp (.cons trivial .refl) hback
  · intro q id hbegins
    exact ⟨hsound.not_mem_turns_of_begins hbegins, hsound.current_of_begins_run hbegins⟩
  · intro q action k hp hrun hsome
    obtain ⟨id, hcurrent⟩ := Option.isSome_iff_exists.1 hsome
    have hm := (hsound.current_eq_some_iff (by simp [hp])).1 hcurrent
    have hrunning := hsound.ready.running hm
    obtain ⟨w, control⟩ := p
    obtain rfl : control = .perform (.queue q action) k := hp
    obtain ⟨a, f, result, hone, htwo⟩ := run_of_running hrunning hrun k
    exact ⟨⟨a, f, result, hone⟩, htwo⟩

/-- A task of one queue makes a pass of another one, whose task runs the first queue. This is the
outermost pass after so many transitions. -/
def crossing : Nat → Process :=
  during [{}, {}] []
    [.act (.queue 0 (.idle "A" [⟨[.queue 1 .runPass], .done⟩] none)),
      .act (.queue 1 (.idle "B" [⟨[.queue 0 .runOnce], .again⟩] none))]
    (.act (.queue 0 .runPass))

theorem reachable_crossing (n : Nat) : (crossing n).Reachable :=
  reachable_during n (by decide +kernel) (by decide +kernel)

/-- The second task is stepped inside the step of the first one, and its run of the first queue is
ignored. -/
theorem single_active_step_crossing :
    (crossing 1).Begins 1 ⟨1, 1⟩ ∧ (1, ⟨1, 1⟩) ∉ (crossing 1).control.turns ∧
    (crossing 2).control =
      .perform (.queue 0 .runOnce) (crossing 2).control.actionStack ∧
    (crossing 2).world.current 0 = some ⟨1, 1⟩ ∧
    (crossing 2).run 2 =
      (crossing 2).world.deliver (crossing 2).control.actionStack (.outcome .stopped) ∧
    ∀ q, ((crossing 2).run 2).world.current q = (crossing 2).world.current q := by
  have hbegins : (crossing 1).Begins 1 ⟨1, 1⟩ := by cbv
  have hperform : (crossing 2).control =
      .perform (.queue 0 .runOnce) (crossing 2).control.actionStack := by cbv
  have hended : (crossing 2).control ≠ .aborted := by rw [hperform]; exact Control.noConfusion
  have hmem : (0, ⟨1, 1⟩) ∈ (crossing 2).control.turns := by decide +kernel
  obtain ⟨_, _, _, _, _, henter, _⟩ := (reachable_crossing 1).single_active_step
  obtain ⟨hmarks, _, hback, _, _, _, hignored⟩ := (reachable_crossing 2).single_active_step
  have hcurrent := (hmarks hended 0 ⟨1, 1⟩).2 hmem
  have hrun := (hignored 0 .runOnce _ hperform rfl (by rw [hcurrent]; rfl)).2
  refine ⟨hbegins, (henter 1 _ hbegins).1 _, hperform, hcurrent, hrun, ?_⟩
  exact hback _ _ 2 hperform (.inl ⟨_, congrArg Process.control hrun⟩)

end Process

end TaskLoop
