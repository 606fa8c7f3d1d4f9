import Mathlib
import TaskLoop.Proofs.Interrupt

namespace TaskLoop

variable {a b c : Hole} {w : World} {q : Nat} {id : TaskId} {p : Process}

def Control.actionStack : Control → Pending .reply
  | .perform _ k => k
  | _ => .outermost

def QueueAction.ignored : QueueAction Action → Reply
  | .runPass => .nat 0
  | .runOnce => .outcome .stopped
  | _ => .null

theorem Action.exists_eq_of_run? {action : Action} (h : action.run? = some q) :
    ∃ queueAction, action = .queue q queueAction := by
  cases action with
  | queue q' action => cases action <;> cases h <;> exact ⟨_, rfl⟩
  | _ => cases h

/-- The payload is on its way out, and the stack is what it has not left yet. It may have to wait
for a destruction. -/
inductive Control.Carries (payload : Payload) (k : Pending c) : Control → Prop
  | leaving : Carries payload k (.unwind payload k)
  | waiting {control : Control} (atop : control.Atop (.cons (.cleanup payload c) k)) :
      Carries payload k control

namespace Process

/-- A cancellation that is on its way out after a transition and was not so before comes from the
hook of a queue. -/
theorem Sound.cancels (h : p.Sound) (hbefore : .cancelled id ∉ p.control.payloads)
    (hafter : .cancelled id ∈ p.step.control.payloads) : ∃ q, p.step.Cancels q id := by
  obtain ⟨w, control⟩ := p
  have hr := h.ready
  cases control with
  | perform action k =>
    have hnext := sequel_perform hr action
    obtain hm | hraised := hnext.stack.mem_payloads hafter
    · exact absurd hm hbefore
    · exact hnext.raised id hraised
  | deliver result k =>
    cases k with
    | outermost => cases hafter
    | cons f k =>
      cases hpayload : f.payload? with
      | none =>
        have hnext := sequel_deliver hr hpayload result
        obtain hm | hraised := hnext.stack.mem_payloads hafter
        · exact absurd (List.mem_append_right _ hm) hbefore
        · exact hnext.raised id hraised
      | some payload =>
        cases f with
        | cleanup payload' hole =>
          rw [step_deliver] at hafter
          exact absurd hafter hbefore
        | _ => cases hpayload
  | unwind payload k =>
    cases k with
    | outermost => cases hafter
    | cons f k =>
      have hkeep : ∀ {l}, .cancelled id ∈ payload :: l → l ⊆ k.payloads → False := by
        intro l hm hl
        obtain hm | hm := List.mem_cons.1 hm
        · exact hbefore (hm ▸ List.mem_cons_self ..)
        · exact hbefore (List.mem_cons_of_mem _ (List.mem_append_right _ (hl hm)))
      have hfate := fate_unwind h
      generalize Process.step ⟨w, .unwind payload (.cons f k)⟩ = p' at hafter hfate ⊢
      cases hfate with
      | passes => exact (hkeep hafter (List.Subset.refl _)).elim
      | destroys sequel =>
        obtain hm | hraised := sequel.stack.mem_payloads hafter
        · exact (hkeep hm (List.Subset.refl _)).elim
        · exact sequel.raised id hraised
      | swallows => exact (hkeep (List.mem_cons_of_mem _ hafter) (List.Subset.refl _)).elim
      | aborts => cases hafter
  | answered | escaped | aborted => exact absurd hafter hbefore

/-- As long as a cancellation is on its way out, it has not left the steps of scripts that it would
end. -/
theorem Sound.carries {k : Pending c} (h : p.Sound) (hone : p.control.payloads.length ≤ 1)
    (hcarries : p.control.Carries (.cancelled id) k) (hm : (q, id) ∈ k.scripts)
    (hstill : .cancelled id ∈ p.step.control.payloads) :
    ∃ (d : Hole) (k' : Pending d), p.step.control.Carries (.cancelled id) k' ∧
      (q, id) ∈ k'.scripts := by
  obtain ⟨w, control⟩ := p
  have hr := h.ready
  cases hcarries with
  | leaving =>
    cases k with
    | outermost => cases hm
    | cons f k =>
      have hfate := fate_unwind h
      generalize Process.step ⟨w, .unwind (.cancelled id) (.cons f k)⟩ = p' at hstill hfate ⊢
      have hempty : k.payloads = [] := by
        have hlength : (f.payload?.toList ++ k.payloads).length + 1 ≤ 1 := hone
        have hnil := List.eq_nil_of_length_eq_zero (Nat.le_zero.1 (Nat.le_of_succ_le_succ hlength))
        exact (List.append_eq_nil_iff.1 hnil).2
      have hbelow : f.script? ≠ some (q, id) → (q, id) ∈ k.scripts := fun hne =>
        (List.mem_append.1 hm).resolve_left fun hf => hne (Option.mem_toList.1 hf)
      cases hfate with
      | passes _ _ _ lets => exact ⟨_, k, .leaving, hbelow fun hf => lets q id hf rfl⟩
      | destroys sequel lets => exact ⟨_, k, .waiting sequel.stack, hbelow (by simp [lets])⟩
      | swallows => rw [World.deliver, Control.payloads, hempty] at hstill; cases hstill
      | aborts => cases hstill
  | waiting atop =>
    cases control with
    | perform action k' =>
      exact ⟨_, k, .waiting ((sequel_perform hr action).stack.trans atop), hm⟩
    | deliver result k' =>
      cases atop with
      | refl => rw [step_deliver]; exact ⟨_, k, .leaving, hm⟩
      | cons free atop =>
        exact ⟨_, k, .waiting ((sequel_deliver hr free result).stack.trans atop), hm⟩
    | unwind payload k' =>
      -- two payloads would be on their way out at once
      have hlength : k'.payloads.length + 1 ≤ 1 := hone
      rw [Pending.Atop.payloads atop] at hlength
      simp [Pending.payloads, Activation.payload?] at hlength
    | answered | escaped | aborted => exact atop.elim

/-- A cancellation that is on its way out has been raised by the hook of a queue, and has been on its
way ever since. -/
theorem Sound.exists_cancels {m : Nat} (h : p.Sound) (hbefore : .cancelled id ∉ p.control.payloads)
    (hm : .cancelled id ∈ (p.run m).control.payloads) :
    ∃ n q, n < m ∧ .cancelled id ∉ (p.run n).control.payloads ∧ (p.run (n + 1)).Cancels q id ∧
      ∀ i, n < i → i ≤ m → .cancelled id ∈ (p.run i).control.payloads := by
  induction m with
  | zero => exact absurd hm hbefore
  | succ m ih =>
    by_cases hlast : .cancelled id ∈ (p.run m).control.payloads
    · obtain ⟨n, q, hn, hnot, hcancels, hall⟩ := ih hlast
      refine ⟨n, q, by omega, hnot, hcancels, fun i hi him => ?_⟩
      obtain him | rfl := Nat.le_succ_iff.1 him
      · exact hall i hi him
      · exact hm
    · rw [run_succ_step] at hm
      obtain ⟨q, hcancels⟩ := (h.run m).cancels hlast hm
      refine ⟨m, q, by omega, hlast, run_succ_step p m ▸ hcancels, fun i hi him => ?_⟩
      obtain rfl : i = m + 1 := by omega
      exact run_succ_step p m ▸ hm

theorem Sound.carries_run {k : Pending c} {m : Nat} (h : p.Sound)
    (hone : ∀ i ≤ m, (p.run i).control.payloads.length ≤ 1)
    (hflight : ∀ i ≤ m, .cancelled id ∈ (p.run i).control.payloads)
    (hcarries : p.control.Carries (.cancelled id) k) (hscript : (q, id) ∈ k.scripts) :
    ∃ (d : Hole) (k' : Pending d), (p.run m).control.Carries (.cancelled id) k' ∧
      (q, id) ∈ k'.scripts := by
  induction m with
  | zero => exact ⟨_, k, hcarries, hscript⟩
  | succ m ih =>
    obtain ⟨d, k', hcarries', hscript'⟩ :=
      ih (fun i hi => hone i (by omega)) fun i hi => hflight i (by omega)
    have hstill := hflight (m + 1) (by omega)
    rw [run_succ_step] at hstill ⊢
    exact (h.run m).carries (hone m (by omega)) hcarries' hscript' hstill

/-- The script that a hook has cancelled is still in its step when the cancellation leaves an
action. -/
theorem Sound.mem_scripts_of_cancels {k : Pending c} {m : Nat} (h : p.Sound)
    (hcancels : p.Cancels q id) (hone : ∀ i ≤ m, (p.run i).control.payloads.length ≤ 1)
    (hflight : ∀ i ≤ m, .cancelled id ∈ (p.run i).control.payloads)
    (hm : (p.run m).control = .unwind (.cancelled id) k) : (q, id) ∈ k.scripts := by
  obtain ⟨hscripts, _⟩ := hcancels.mem_scripts h.ready
  obtain ⟨_, k₀, _, _, hcontrol, _⟩ := hcancels
  rw [hcontrol] at hscripts
  obtain ⟨d, k', hcarries, hscript⟩ :=
    h.carries_run hone hflight (by rw [hcontrol]; exact .leaving) hscripts
  have hlength := hone m (Nat.le_refl m)
  rw [hm] at hcarries hlength
  cases hcarries with
  | leaving => exact hscript
  | waiting atop =>
    have hlength : k.payloads.length + 1 ≤ 1 := hlength
    rw [Pending.Atop.payloads atop] at hlength
    simp [Pending.payloads, Activation.payload?] at hlength

/-- A run of a queue inside a step of that queue does nothing. -/
theorem run_of_running {action : QueueAction Action} (hrunning : w.Running q id)
    (hrun : (Action.queue q action).run? = some q) (k : Pending .reply) :
    ∃ (a : Hole) (f : Activation a .reply) (result : a.Result),
      run 1 ⟨w, .perform (.queue q action) k⟩ = w.deliver (.cons f k) result ∧
      run 2 ⟨w, .perform (.queue q action) k⟩ = w.deliver k action.ignored := by
  obtain ⟨Q, hQ, hc, _⟩ := hrunning
  cases action <;> cases hrun
  · exact ⟨_, .passReply, 0, by simp [run, isOver, Process.step, World.perform, hQ,
      World.performOnQueue, World.startPass, hc, World.deliver, Activation.resume,
      QueueAction.ignored]⟩
  · exact ⟨_, .runReply, .stopped, by simp [run, isOver, Process.step, World.perform, hQ,
      World.performOnQueue, World.startRun, hc, World.deliver, Activation.resume,
      QueueAction.ignored]⟩
  · exact ⟨_, .forever q, .stopped, by simp [run, isOver, Process.step, World.perform, hQ,
      World.performOnQueue, World.startRun, hc, World.deliver, Activation.resume,
      QueueAction.ignored]⟩

theorem run?_ne_of_running {action : Action} {k : Pending .reply} {m : Nat} {payload : Payload}
    (hrunning : w.Running q id)
    (hinside : ∀ i < m, 0 < i → k.depth < (run i ⟨w, .perform action k⟩).control.depth)
    (hm : (run m ⟨w, .perform action k⟩).control = .unwind payload k) :
    action.run? ≠ some q := by
  intro hrun
  obtain ⟨action, rfl⟩ := Action.exists_eq_of_run? hrun
  obtain ⟨a, f, result, hone, htwo⟩ := run_of_running hrunning hrun k
  obtain rfl | rfl | rfl | hlong : m = 0 ∨ m = 1 ∨ m = 2 ∨ 2 < m := by omega
  · cases hm
  · rw [hone] at hm; cases hm
  · rw [htwo] at hm; cases hm
  · have hdepth := hinside 2 hlong (by omega)
    rw [htwo] at hdepth
    exact absurd hdepth (Nat.lt_irrefl _)

/-- No cancellation ends a command, and none leaves a run of the queue whose hook raised it: if an
action is left by a cancellation and no other payload is on its way out in the meantime, then the
cancelled script is queued and runs when the action begins, the hook of its queue cancels it while
the action goes on, and it has been interrupted by then. -/
theorem Reachable.cancellation_contained (h : p.Reachable) :
    (∀ id, p.control ≠ .escaped (.cancelled id)) ∧
    ∀ (action : Action) (k : Pending .reply) (m : Nat) (id : TaskId),
      p.control = .perform action k →
      (∀ i ≤ m, (p.run i).control.payloads.length ≤ 1) →
      (∀ i < m, 0 < i → k.depth < (p.run i).control.depth) →
      (p.run m).control = .unwind (.cancelled id) k →
      ∃ q Q t n, p.world.queue? q = some Q ∧ Q.current = some id ∧
        Q.get? id = some (.script t) ∧ n < m ∧ (p.run (n + 1)).Cancels q id ∧
        .cancelled id ∉ (p.run n).control.payloads ∧
        (∀ i, n < i → i ≤ m → .cancelled id ∈ (p.run i).control.payloads) ∧
        (p.run (n + 1)).Interrupted q id ∧ action.run? ≠ some q := by
  refine ⟨fun id hp => ?_, fun action k m id hp hone hinside hm => ?_⟩
  · obtain ⟨q, hm, _⟩ := h.sound.flight id (by rw [hp]; rfl)
    rw [hp] at hm
    cases hm
  obtain ⟨w, control⟩ := p
  cases hp
  have hk : k.Ready w := h.sound.ready
  have hbefore : .cancelled id ∉ k.payloads := by
    have hlength := hone m (Nat.le_refl m)
    rw [hm] at hlength
    rw [List.eq_nil_of_length_eq_zero (Nat.le_zero.1 (Nat.le_of_succ_le_succ hlength))]
    exact List.not_mem_nil
  obtain ⟨n, q, hn, hnot, hcancels, hall⟩ := h.sound.exists_cancels hbefore
    (by rw [hm]; exact List.mem_cons_self ..)
  have hraised := h.run (n + 1)
  -- the cancellation is followed from where it is raised to where it leaves the action
  have hscript : (q, id) ∈ k.scripts := by
    have hrest : ∀ i, (Process.run (n + 1) ⟨w, .perform action k⟩).run i =
        Process.run (n + 1 + i) ⟨w, .perform action k⟩ := fun i => (run_add _ _ _).symm
    refine hraised.sound.mem_scripts_of_cancels (m := m - (n + 1)) hcancels (fun i hi => ?_)
      (fun i hi => ?_) ?_
    · rw [hrest]; exact hone _ (by omega)
    · rw [hrest]; exact hall _ (by omega) (by omega)
    · rw [hrest, show n + 1 + (m - (n + 1)) = m by omega]; exact hm
  have hrunning := hk.stack.running (hk.stack.scripts_subset hscript)
  obtain ⟨_, t', ht', harmed⟩ := hcancels.mem_scripts hraised.sound.ready
  obtain ⟨task, ht, hheir⟩ := h.sound.task?_origin_run hrunning ht'
  obtain ⟨t, rfl⟩ := hheir.script
  obtain ⟨Q, hQ, hg⟩ := World.task?_eq_some.1 ht
  obtain ⟨Q', hQ', hg'⟩ := World.task?_eq_some.1 ht'
  exact ⟨q, Q, t, n, hQ, hrunning.current hQ, hg, hn, hcancels, hnot, hall,
    hraised.interrupted ⟨Q', hQ', .inl ⟨_, hg', harmed⟩⟩,
    run?_ne_of_running hrunning hinside hm⟩

/-- A script calls a host function, which interrupts the script and then makes a protected call on
the same machine. This is the run of its queue after so many transitions. -/
def nestedCall : Nat → Process :=
  during [{}] [.machine {}]
    [.act (.engine 0 (.load "inner" "push 1".toUTF8.data.toList)), .act (.engine 0 .reference),
      .act (.engine 0 (.host "h"
        [⟨[.queue 0 (.interrupt "S"), .engine 0 (.call 1 .traceback)], none, false⟩])),
      .act (.queue 0 (.parseAndStart "S" 0 "host h".toUTF8.data.toList))]
    (.act (.queue 0 .runOnce))

theorem reachable_nestedCall (n : Nat) : (nestedCall n).Reachable :=
  reachable_during n (by decide +kernel) (by decide +kernel)

/-- The inner call is left by the cancellation of the script that makes it. -/
theorem cancellation_contained_nestedCall :
    (nestedCall 4).control =
      .perform (.engine 0 (.call 1 .traceback)) (nestedCall 4).control.actionStack ∧
    ((nestedCall 4).run 4).control =
      .unwind (.cancelled ⟨1, 1⟩) (nestedCall 4).control.actionStack ∧
    ∃ q Q t n, (nestedCall 4).world.queue? q = some Q ∧ Q.current = some ⟨1, 1⟩ ∧
      Q.get? ⟨1, 1⟩ = some (.script t) ∧ n < 4 ∧ ((nestedCall 4).run (n + 1)).Cancels q ⟨1, 1⟩ ∧
      .cancelled ⟨1, 1⟩ ∉ ((nestedCall 4).run n).control.payloads ∧
      (∀ i, n < i → i ≤ 4 → .cancelled ⟨1, 1⟩ ∈ ((nestedCall 4).run i).control.payloads) ∧
      ((nestedCall 4).run (n + 1)).Interrupted q ⟨1, 1⟩ ∧
      (Action.engine 0 (.call 1 .traceback)).run? ≠ some q := by
  have hbegin : (nestedCall 4).control =
      .perform (.engine 0 (.call 1 .traceback)) (nestedCall 4).control.actionStack := by cbv
  have hend : ((nestedCall 4).run 4).control =
      .unwind (.cancelled ⟨1, 1⟩) (nestedCall 4).control.actionStack := by cbv
  exact ⟨hbegin, hend, (reachable_nestedCall 4).cancellation_contained.2 _ _ 4 ⟨1, 1⟩ hbegin
    (by decide +kernel) (by decide +kernel) hend⟩

def swallows? (p : Process) : Option (Nat × TaskId) :=
  match p.control with
  | .unwind (.cancelled id) (.cons (.script q id' _ _) _) => if id' = id then some (q, id) else none
  | _ => none

theorem swallows?_eq_some (h : p.swallows? = some (q, id)) :
    p.control.payload? = some (.cancelled id) ∧ (q, id) ∈ p.control.scripts := by
  unfold swallows? at h
  split at h
  · next id' q' id'' t base k hcontrol =>
    split at h
    · next hid =>
      cases h
      rw [hcontrol, ← hid]
      exact ⟨rfl, List.mem_cons_self ..⟩
    · cases h
  · cases h

end Process

theorem World.scriptArmed_iff (hw : w.WellFormed) (hrunning : w.Running q id) :
    w.scriptArmed q id = true ↔ w.Armed q id := by
  obtain ⟨Q, hQ, hc, _⟩ := hrunning
  have harmed : w.Armed q id ↔ Q.Armed id := by simp [World.Armed, hQ]
  rw [harmed]
  cases hg : Q.get? id with
  | some task =>
    have hheld := (hw q Q hQ).held_eq_none_of_get? hc hg
    simp [World.scriptArmed, hQ, Queue.record?, Queue.Armed, hg, hheld]
  | none =>
    cases hh : Q.held <;> simp [World.scriptArmed, hQ, Queue.record?, Queue.Armed, hg, hh, hc]

namespace Process

theorem Reachable.interrupted_iff_scriptArmed (h : p.Reachable)
    (hm : (q, id) ∈ p.control.scripts) :
    p.Interrupted q id ↔ p.world.scriptArmed q id = true := by
  have hturn := h.sound.ready.scripts_subset hm
  rw [h.interrupted_iff hturn, World.scriptArmed_iff h.sound.queues (h.sound.ready.running hturn)]

/-- A step that ends by a cancellation is that of an interrupted script, as its record says, or else
an interrupted script of another queue that has the same id is in the middle of its step. -/
theorem Reachable.interrupted_or_namesake (h : p.Reachable) (hs : p.swallows? = some (q, id)) :
    (p.Interrupted q id ↔ p.world.scriptArmed q id = true) ∧
      (p.Interrupted q id ∨
        ∃ q', q' ≠ q ∧ (q', id) ∈ p.control.scripts ∧ p.Interrupted q' id) := by
  obtain ⟨hpayload, hm⟩ := swallows?_eq_some hs
  refine ⟨h.interrupted_iff_scriptArmed hm, ?_⟩
  obtain ⟨q', hm', harmed⟩ := h.sound.flight id hpayload
  by_cases hq : q' = q
  · subst hq
    exact .inl (h.interrupted harmed)
  · exact .inr ⟨q', hq, hm', h.interrupted harmed⟩

theorem interrupted_or_namesake_nestedCall :
    (nestedCall 10).swallows? = some (0, ⟨1, 1⟩) ∧
    ((nestedCall 10).Interrupted 0 ⟨1, 1⟩ ↔
      (nestedCall 10).world.scriptArmed 0 ⟨1, 1⟩ = true) ∧
    ((nestedCall 10).Interrupted 0 ⟨1, 1⟩ ∨ ∃ q', q' ≠ 0 ∧
      (q', ⟨1, 1⟩) ∈ (nestedCall 10).control.scripts ∧ (nestedCall 10).Interrupted q' ⟨1, 1⟩) := by
  have hswallows : (nestedCall 10).swallows? = some (0, ⟨1, 1⟩) := by decide +kernel
  exact ⟨hswallows, (reachable_nestedCall 10).interrupted_or_namesake hswallows⟩

/-- Two queues share a machine, and their first scripts have the same id. The script of queue 0
calls a host function, which interrupts that script and then steps the other one. -/
def namesakes : Nat → Process :=
  during [{}, {}] [.machine {}]
    [.act (.engine 0 (.host "h"
        [⟨[.queue 0 (.interrupt "S"), .queue 1 .runPass], none, false⟩])),
      .act (.queue 0 (.parseAndStart "S" 0 "host h\npush 1\npop".toUTF8.data.toList)),
      .act (.queue 1 (.parseAndStart "T" 0 "push 1\npop".toUTF8.data.toList))]
    (.act (.queue 0 .runOnce))

theorem reachable_namesakes (n : Nat) : (namesakes n).Reachable :=
  reachable_during n (by decide +kernel) (by decide +kernel)

/-- The step of the other script ends by the cancellation, though nothing has interrupted it. -/
theorem swallows_namesakes :
    (namesakes 7).Reachable ∧ (namesakes 7).swallows? = some (1, ⟨1, 1⟩) ∧
      ¬ (namesakes 7).Interrupted 1 ⟨1, 1⟩ := by
  have hswallows : (namesakes 7).swallows? = some (1, ⟨1, 1⟩) := by decide +kernel
  have hp := reachable_namesakes 7
  refine ⟨hp, hswallows, fun hi => ?_⟩
  have harmed := (hp.interrupted_iff_scriptArmed (swallows?_eq_some hswallows).2).1 hi
  have hnot : (namesakes 7).world.scriptArmed 1 ⟨1, 1⟩ = false := by decide +kernel
  cases harmed.symm.trans hnot

end Process

end TaskLoop
