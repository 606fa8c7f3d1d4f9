import Mathlib
import TaskLoop.Proofs.Pass
import TaskLoop.Proofs.Quiescence
import TaskLoop.Proofs.Roles
import TaskLoop.Proofs.SingleStep

namespace TaskLoop

variable {a b c : Hole} {w w₁ : World} {q l m n r : Nat} {id : TaskId} {p : Process} {Q : Queue}
  {o : RunOutcome}

def Activation.clears : Activation a b → Bool
  | .rested | .walk .. | .doneReply _ | .sweep _ | .cleanup .. => true
  | _ => false

def Activation.destroys (f : Activation a b) (k : Pending b) : Bool :=
  match f, k with
  | .unheeded, .cons f _ => f.clears
  | _, _ => false

def Pending.destructors : {a : Hole} → Pending a → Nat
  | _, .outermost => 0
  | _, .cons f k => (if f.destroys k then 1 else 0) + k.destructors

def Control.destructors : Control → Nat
  | .perform _ k => k.destructors
  | .deliver _ k => k.destructors
  | .unwind _ k => k.destructors
  | _ => 0

def Process.InDestructor (k : Pending c) (p : Process) : Prop :=
  k.destructors < p.control.destructors

theorem Pending.Upon.destructors_le {k : Pending c} {k' : Pending a} (h : k.Upon k') :
    k.destructors ≤ k'.destructors := by
  induction h with
  | refl => exact Nat.le_refl _
  | cons f _ ih => exact Nat.le_trans ih (Nat.le_add_left _ _)

theorem Control.Upon.destructors_le {k : Pending c} {control : Control} (h : control.Upon k) :
    k.destructors ≤ control.destructors := by
  cases control with
  | perform | deliver | unwind => exact Pending.Upon.destructors_le h
  | answered | escaped | aborted => exact h.elim

namespace Process

theorem inDestructor_of_upon {f : Activation .done b} {k : Pending b} (hf : f.clears = true)
    (h : p.control.Upon (.cons .unheeded (.cons f k))) : p.InDestructor k := by
  refine Nat.lt_of_lt_of_le ?_ h.destructors_le
  have hle := (Pending.Upon.cons f (Pending.Upon.refl (k := k))).destructors_le
  rw [Pending.destructors, Activation.destroys, if_pos hf]
  omega

theorem InDestructor.lower {k : Pending c} {k' : Pending b} (h : p.InDestructor k')
    (hupon : k.Upon k') : p.InDestructor k := Nat.lt_of_le_of_lt hupon.destructors_le h

end Process

theorem World.destroy_cases (w : World) (task : Task) (k : Pending .done) :
    (w.destroy task k).control.Upon (.cons .unheeded k) ∨
      ∃ w₁ : World, w.destroy task k = w₁.deliver k () := by
  have hcallback : ∀ name onDrop,
      (w.destroyCallback name onDrop k).control.Upon (.cons .unheeded k) ∨
        ∃ w₁ : World, w.destroyCallback name onDrop k = w₁.deliver k () := fun name onDrop => by
    cases onDrop with
    | none => exact .inr ⟨w, rfl⟩
    | some actions =>
      exact .inl over_callBack.upon
  cases task with
  | idle t => exact hcallback t.name t.onDrop
  | timer t => exact hcallback t.name t.onDrop
  | script t => exact .inr ⟨_, rfl⟩
  | watcher t =>
    obtain ⟨name, callback⟩ := t
    cases callback with
    | none => exact .inr ⟨w, rfl⟩
    | some callback => exact hcallback name callback.onDrop

namespace Process

/-- Where a pass on top of a stack stands: in the turn of a task, in the destructor of a record or
next to it, or at its end. -/
inductive MidPass (q : Nat) (k : Pending .pass) (p : Process) : Prop
  | turn {id : TaskId} {walk : Walk} (stack : p.control.Upon (.cons (.turn q id walk) k))
  | clearing {next : Option TaskId} {walk : Walk}
      (stack : p.control.Upon (.cons .unheeded (.cons (.walk q next walk) k)))
  | cleared {next : Option TaskId} {walk : Walk} (back : p.Back (Pending.cons (.walk q next walk) k))
  | ended (back : p.Back k)

variable {k : Pending .pass}

theorem back_deliver (w : World) (k : Pending c) (result : c.Result) : (w.deliver k result).Back k :=
  .inl ⟨result, rfl⟩

theorem back_unwind (w : World) (payload : Payload) (k : Pending c) : (w.unwind payload k).Back k :=
  .inr ⟨payload, rfl⟩

theorem midPass_walkOn (w : World) (q : Nat) (next : Option TaskId) (walk : Walk)
    (k : Pending .pass) : (w.walkOn q next walk k).MidPass q k := by
  have hfinish : (w.finishPass q walk k).MidPass q k := .ended (back_deliver _ k _)
  cases next with
  | none => exact hfinish
  | some id =>
    cases ht : w.task? q id with
    | none =>
      rw [World.walkOn, show w.queue? q >>= (·.get? id) = none from ht]
      exact hfinish
    | some task => exact .turn (World.upon_walkOn ht walk k).2

theorem midPass_destroy (w : World) (task : Task) (next : Option TaskId) (walk : Walk)
    (k : Pending .pass) : (w.destroy task (.cons (.walk q next walk) k)).MidPass q k := by
  obtain hupon | ⟨w₁, he⟩ := w.destroy_cases task (.cons (.walk q next walk) k)
  · exact .clearing hupon
  · rw [he]
    exact .cleared (back_deliver _ _ _)

theorem midPass_endTurn (w : World) (q : Nat) (id : TaskId) (walk : Walk) (verdict : Verdict)
    (k : Pending .pass) : (w.endTurn q id walk verdict k).MidPass q k := by
  unfold World.endTurn
  split
  · exact .ended (back_deliver _ _ _)
  · dsimp only
    split
    · exact midPass_destroy ..
    · split
      · exact .cleared (back_deliver _ _ _)
      · exact midPass_destroy ..

/-- One transition of a pass that is not left by a payload. -/
theorem MidPass.step (h : p.MidPass q k) (hdeep : k.depth < p.control.depth)
    (hreturns : ∀ payload, ¬ p.step.control.Upon (.cons (.cleanup payload .pass) k))
    (halive : p.step.control ≠ .aborted) : p.step.MidPass q k := by
  cases h with
  | @turn id walk stack =>
    cases Process.holds stack (by decide) with
    | above _ stays => exact .turn (stays.resolve_right halive)
    | result w verdict =>
      rw [World.deliver, step_deliver]
      exact midPass_endTurn w q id walk verdict k
    | payload w payload =>
      rw [World.unwind, step_unwind] at hreturns ⊢
      obtain ⟨w', he⟩ | hupon := w.abandonTurn_eq q payload k
      · rw [Activation.unwind, he]
        exact .ended (back_unwind _ _ _)
      · exact absurd hupon (hreturns payload)
  | @clearing next walk stack =>
    cases Process.holds stack (by decide) with
    | above _ stays => exact .clearing (stays.resolve_right halive)
    | result w complaint =>
      rw [World.deliver, step_deliver]
      exact .cleared (back_deliver _ _ _)
    | payload w payload =>
      rw [World.unwind, step_unwind]
      exact .cleared (back_unwind _ _ _)
  | @cleared next walk back =>
    obtain ⟨w, control⟩ := p
    obtain ⟨result, rfl⟩ | ⟨payload, rfl⟩ := back
    · rw [step_deliver]
      exact midPass_walkOn w q next walk k
    · rw [step_unwind]
      exact .ended (back_unwind _ _ _)
  | ended back =>
    obtain ⟨result, hp⟩ | ⟨payload, hp⟩ := back <;>
    · rw [hp] at hdeep
      exact absurd hdeep (Nat.lt_irrefl _)

/-- What performs an action while no step of the queue is active is a destructor. -/
theorem MidPass.inDestructor {action : Action} (h : p.MidPass q k) (hp : p.Sound)
    (haction : p.control.action? = some action) (hidle : p.world.current q = none) :
    p.InDestructor k := by
  have hnot : ∀ {b : Hole} {k' : Pending b}, ¬ p.Back k' := fun {b k'} hback => by
    obtain ⟨_, hp⟩ | ⟨_, hp⟩ := hback <;> rw [hp] at haction <;> cases haction
  cases h with
  | @turn id walk stack =>
    have hm : (q, id) ∈ p.control.turns := stack.turns.subset (List.mem_cons_self ..)
    cases ((hp.current_eq_some_iff stack.ne_aborted).2 hm).symm.trans hidle
  | clearing stack => exact inDestructor_of_upon rfl stack
  | cleared back => exact absurd back hnot
  | ended back => exact absurd back hnot

/-- What runs on top of the stack runs no passes of the queue; a run that is asked for is ignored. -/
inductive Runless (q : Nat) (k : Pending c) (p : Process) : Prop
  | topped (stack : p.control.Topped (· ≠ .run q) k)
  | ignored {k' : Pending .reply} (stack : k.Topped (· ≠ .run q) k')
      (returns : p.control = .deliver (RunOutcome.stopped : Hole.run.Result) (.cons (.forever q) k'))

theorem Stops.stopping_step (h : p.Stops q) (hQ : p.world.queue? q = some Q) :
    p.step.world.stopping q = true := by
  obtain ⟨k, hp⟩ := h
  rw [Process.step, hp]
  simp only [World.perform, hQ, World.performOnQueue]
  exact World.stopping_eq (World.queue?_setQueue_self hQ _)

/-- Only an action asks for a run on top of a stack without runs. -/
theorem performs_of_role {k : Pending c} (h : p.control.Topped (· ≠ .run q) k)
    (hdeep : k.depth < p.control.depth) (hrole : p.control.role? = some (.run q)) :
    ∃ k', k.Topped (· ≠ .run q) k' ∧ (p.control = .perform (.queue q .runOnce) k' ∨
      p.control = .perform (.queue q .runForever) k') := by
  obtain ⟨w, control⟩ := p
  cases control with
  | perform action k' =>
    refine ⟨k', h, ?_⟩
    cases action with
    | queue q' action =>
      cases action with
      | runOnce => cases hrole; exact .inl rfl
      | runForever => cases hrole; exact .inr rfl
      | _ => cases hrole
    | _ => cases hrole
  | deliver result k' | unwind payload k' =>
    cases h with
    | refl => exact absurd hdeep (Nat.lt_irrefl _)
    | cons role _ => exact absurd rfl (role _ hrole)
  | answered | escaped | aborted => cases hrole

theorem Runless.step {k : Pending c} (h : p.Runless q k) (hdeep : k.depth < p.control.depth)
    (hignored : ∀ action, p.control.action? = some action → action.run? = some q →
      (p.world.current q).isSome)
    (halive : p.step.control ≠ .aborted) :
    p.step.Runless q k ∧ (¬ p.Stops q → p.step.world.stopping q = p.world.stopping q) := by
  cases h with
  | topped stack =>
    by_cases hrole : p.control.role? = some (.run q)
    · obtain ⟨k', hk', hp⟩ := performs_of_role stack hdeep hrole
      obtain ⟨action, hp, haction⟩ : ∃ action, p.control = .perform (.queue q action) k' ∧
          (action = .runOnce ∨ action = .runForever) := hp.elim (fun hp => ⟨_, hp, .inl rfl⟩)
        fun hp => ⟨_, hp, .inr rfl⟩
      have hcurrent := hignored (.queue q action) (by rw [hp]; rfl)
        (by obtain rfl | rfl := haction <;> rfl)
      obtain ⟨w, control⟩ := p
      obtain rfl : control = .perform (.queue q action) k' := hp
      obtain ⟨id, hid⟩ := Option.isSome_iff_exists.1 hcurrent
      obtain ⟨Q, hQ, hc⟩ := Option.bind_eq_some_iff.1 hid
      have hQ' : w.queue? q = some Q := hQ
      have hstart : ∀ k'' : Pending .run, w.startRun q k'' = w.deliver k'' .stopped := fun k'' => by
        simp [World.startRun, hQ', hc]
      obtain rfl | rfl := haction
      · have hstep : (Process.mk w (.perform (.queue q .runOnce) k')).step =
            w.deliver (.cons .runReply k') .stopped := by
          simp only [Process.step, World.perform, hQ', World.performOnQueue, hstart]
        rw [hstep]
        exact ⟨.topped (hk'.trans (Pending.topped_cons rfl k')), fun _ => rfl⟩
      · have hstep : (Process.mk w (.perform (.queue q .runForever) k')).step =
            w.deliver (.cons (.forever q) k') .stopped := by
          simp only [Process.step, World.perform, hQ', World.performOnQueue, hstart]
        rw [hstep]
        exact ⟨.ignored hk' rfl, fun _ => rfl⟩
    · refine ⟨.topped ((topped_step stack hdeep fun role hrole' role' hmakes he => ?_).resolve_right
        halive), fun hstops => stopping_step hstops hrole⟩
      subst he
      cases role with
      | pass q' => cases hmakes
      | run q' =>
        obtain rfl : q = q' := hmakes
        exact hrole hrole'
  | @ignored k' stack returns =>
    obtain ⟨w, control⟩ := p
    obtain rfl : control = _ := returns
    rw [step_deliver]
    exact ⟨.topped stack, fun _ => rfl⟩

theorem Sound.exists_queue_run (h : p.Sound) (hQ : p.world.queue? q = some Q) (n : Nat) :
    ∃ Q', (p.run n).world.queue? q = some Q' := by
  have hmoves := (h.moves_run n).queues q
  rw [hQ] at hmoves
  generalize (p.run n).world.queue? q = o at hmoves
  cases hmoves with
  | some => exact ⟨_, rfl⟩

/-- What happens to the stop flag in the first transitions of a pass that returns. -/
structure Heeds (q : Nat) (k : Pending .pass) (l : Nat) (p : Process) : Prop where
  stands : (p.run l).MidPass q k
  runless : (p.run l).Runless q k
  stopping : (p.run l).world.stopping q = true ↔
    p.world.stopping q = true ∨ ∃ j < l, (p.run j).Stops q

def Undisturbed (q : Nat) (k : Pending c) (n : Nat) (p : Process) : Prop :=
  ∀ l < n, ∀ action, (p.run l).control.action? = some action → action.run? = some q →
    ¬ (p.run l).InDestructor k

theorem Passes.heeds_one (h : p.Passes q k n w r) (hquiet : ¬ p.Stops q) : p.Heeds q k 1 := by
  obtain ⟨Q, hQ, hidle⟩ := h.idle
  have hstep : p.step = p.world.walkOn q Q.order.head? {} k := by
    simp [h.starts, World.startPass, hQ, hidle]
  have hpass : Role.pass q ≠ .run q := Role.noConfusion
  have hminds := World.minds_walkOn (S := (· ≠ .run q)) (E := False) (B := True) hpass p.world
    Q.order.head? {} k fun _ _ => trivial
  rw [← hstep] at hminds
  have hone : p.run 1 = p.step := run_succ_step p 0
  refine ⟨?_, ?_, ?_⟩
  · rw [hone, hstep]
    exact midPass_walkOn ..
  · rw [hone]
    exact .topped hminds.stack
  · rw [hone, hminds.world.stopping False.elim]
    refine (or_iff_left ?_).symm
    rintro ⟨j, hj, hstops⟩
    obtain rfl := Nat.lt_one_iff.1 hj
    exact hquiet hstops

/-- During a pass a request to stop is kept, and none comes up by itself. -/
theorem Passes.heeds (h : p.Passes q k n w r) (hp : p.Sound) (hquiet : ¬ p.Stops q)
    (hcalm : p.Undisturbed q k n) (hl : l < n) : p.Heeds q k (l + 1) := by
  induction l with
  | zero => exact h.heeds_one hquiet
  | succ l ih =>
    obtain ⟨hstands, hrunless, hstopping⟩ := ih (Nat.lt_of_succ_lt hl)
    have hdeep := h.inside (l + 1) hl (Nat.succ_pos l)
    have hs := hp.run (l + 1)
    have halive : (p.run (l + 1)).step.control ≠ .aborted := (h.serves hl).not_aborted
    obtain ⟨Q₀, hQ₀, _⟩ := h.idle
    obtain ⟨Q, hQ⟩ := hp.exists_queue_run hQ₀ (l + 1)
    obtain ⟨hrunless', hsame⟩ := hrunless.step hdeep (fun action haction hrun => by
      rw [← Option.ne_none_iff_isSome]
      intro hidle
      exact hcalm (l + 1) hl action haction hrun (hstands.inDestructor hs haction hidle)) halive
    have hstands' := hstands.step hdeep (fun payload => by
      rw [← run_succ_step]
      exact h.not_upon_cleanup hl) halive
    rw [← run_succ_step] at hrunless' hsame hstands'
    refine ⟨hstands', hrunless', ?_⟩
    by_cases hstops : (p.run (l + 1)).Stops q
    · refine iff_of_true ?_ (.inr ⟨l + 1, Nat.lt_succ_self _, hstops⟩)
      rw [run_succ_step]
      exact hstops.stopping_step hQ
    · rw [hsame hstops, hstopping]
      refine or_congr_right ⟨fun ⟨j, hj, h⟩ => ⟨j, Nat.lt_succ_of_lt hj, h⟩, fun ⟨j, hj, h⟩ => ?_⟩
      obtain rfl | hlt := Nat.eq_or_lt_of_le (Nat.le_of_lt_succ hj)
      · exact absurd h hstops
      · exact ⟨j, hlt, h⟩

theorem Passes.stopping_iff (h : p.Passes q k n w r) (hp : p.Sound) (hquiet : ¬ p.Stops q)
    (hcalm : p.Undisturbed q k n) :
    w.stopping q = true ↔ p.world.stopping q = true ∨ ∃ l < n, (p.run l).Stops q := by
  obtain ⟨m, rfl⟩ := Nat.exists_eq_add_one.2 h.lasts
  have hstopping := (h.heeds hp hquiet hcalm (Nat.lt_succ_self m)).stopping
  rwa [h.returns] at hstopping

theorem Passes.current_eq_none (h : p.Passes q k n w r) (hp : p.Sound) : w.current q = none := by
  obtain ⟨Q, hQ, hidle⟩ := h.idle
  have halive : p.control ≠ .aborted := fun ha => by
    have hover : p.isOver = true := by rw [isOver, ha]
    have hreturns := h.returns
    rw [run_of_isOver hover n] at hreturns
    rw [hreturns] at ha
    cases ha
  have hsame := hp.current_congr (hp.run n) halive (by rw [h.returns]; exact Control.noConfusion)
    (by rw [h.returns]; exact h.turns.symm) q
  rw [h.returns, World.current_eq hQ, hidle] at hsame
  exact hsame

/-- A pass is finished: each task that stays queued has a turn, unless the pass breaks off at a task
that was to be next and has left. -/
def Completed (q : Nat) (k : Pending .pass) (n : Nat) (w : World) (p : Process) : Prop :=
  ∀ id ∈ p.world.order q, id ∈ w.order q → p.HasTurn q k n id ∨
    ∃ (w₁ : World) (id₁ : TaskId) (walk : Walk), id₁ ∉ w.order q ∧
      p.run (n - 1) = w₁.deliver (.cons (.walk q (some id₁) walk) k) ()

theorem Passes.completed (h : p.Passes q k n w r) (hp : p.Sound) : p.Completed q k n w := by
  intro id hstart hend
  obtain ⟨ids, done, todo, next, walk, m, rfl, hrow, hpassed, hchosen, hgone, horder, _, _, hturns⟩ :=
    h.last (G := False) hp False.elim
  by_cases hvisited : id ∈ ids
  · exact .inl (hturns id hvisited)
  · have hdone : id ∉ done := fun hm => hvisited (hpassed.left id hm (horder ▸ hend))
    cases next with
    | none => exact absurd (hchosen.ends rfl hstart) hdone
    | some id₁ =>
      obtain ⟨hnot, hlast⟩ := hgone id₁ rfl
      exact .inr ⟨_, id₁, walk, hnot, hlast⟩

/-- What runs on top of a stack and comes back to it is above the stack until then. -/
theorem Back.first {k : Pending c} (h : (p.run n).Back k) (hc : c ≠ .reply)
    (hupon : p.control.Upon k) :
    ∃ m ≤ n, (p.run m).Back k ∧ ∀ l < m, k.depth < (p.run l).control.depth := by
  classical
  have hback : ∃ m, (p.run m).Back k := ⟨n, h⟩
  have hfirst : ∀ l < Nat.find hback, ¬ (p.run l).Back k := fun l hl => Nat.find_min hback hl
  refine ⟨Nat.find hback, Nat.find_min' hback h, Nat.find_spec hback, fun l hl => ?_⟩
  obtain hstill | haborted := stays_run hc hupon fun j hj => hfirst j (Nat.lt_trans hj hl)
  · have hholds := holds hstill hc
    have hnot := hfirst l hl
    generalize p.run l = p' at hholds hnot
    cases hholds with
    | above deeper _ => exact deeper
    | result w result => exact absurd (back_deliver w k result) hnot
    | payload w payload => exact absurd (back_unwind w payload k) hnot
  · have hover : (p.run l).isOver = true := by rw [isOver, haborted]
    have halive := (Nat.find_spec hback).ne_aborted
    rw [run_of_le hover (Nat.le_of_lt hl)] at halive
    exact absurd haborted halive

/-- What runs on top of a stack and is gone later has come back to the stack. -/
theorem exists_back {k : Pending c} (hc : c ≠ .reply) (hupon : p.control.Upon k)
    (hleft : (p.run n).control.depth < k.depth) (halive : (p.run n).control ≠ .aborted) :
    ∃ m < n, (p.run m).Back k ∧ ∀ l < m, k.depth < (p.run l).control.depth := by
  by_cases hback : ∃ m, m < n ∧ (p.run m).Back k
  · obtain ⟨m, hm, hback⟩ := hback
    obtain ⟨first, hle, hback, hbefore⟩ := hback.first hc hupon
    exact ⟨first, Nat.lt_of_le_of_lt hle hm, hback, hbefore⟩
  · obtain hstill | haborted := stays_run hc hupon fun l hl hl' => hback ⟨l, hl, hl'⟩
    · exact absurd hleft (Nat.not_lt.2 hstill.depth_le)
    · exact absurd haborted halive

structure Yields (k : Pending c) (n : Nat) (w : World) (result : c.Result) (p : Process) : Prop where
  lasts : 0 < n
  inside : ∀ l < n, 0 < l → k.depth < (p.run l).control.depth
  returns : p.run n = w.deliver k result

/-- A stack that is given a result was the stack of an activation that was given one before. -/
theorem Yields.inner {f : Activation a b} {k : Pending b} {result : b.Result}
    (h : p.Yields k n w result) (ha : a ≠ .reply)
    (hf : ∀ payload (w : World), f.unwind payload w k = w.unwind payload k)
    (hupon : p.step.control.Upon (.cons f k)) :
    ∃ m w₁ result₁, m < n ∧ p.Yields (.cons f k) m w₁ result₁ := by
  obtain ⟨n, rfl⟩ := Nat.exists_eq_add_one.2 h.lasts
  have hreturns : p.step.run n = w.deliver k result := by rw [← run_succ, h.returns]
  obtain ⟨m, hm, hback, hbefore⟩ := exists_back (n := n) ha hupon
    (by rw [hreturns]; exact Nat.lt_succ_self _) (by rw [hreturns]; exact Control.noConfusion)
  rw [← run_succ] at hback
  obtain ⟨result₁, hp⟩ | ⟨payload, hp⟩ := hback
  · refine ⟨m + 1, _, result₁, Nat.succ_lt_succ hm, Nat.succ_pos m, fun l hl hpos => ?_,
      eq_deliver hp⟩
    obtain ⟨l, rfl⟩ := Nat.exists_eq_add_one.2 hpos
    rw [run_succ]
    exact hbefore l (Nat.lt_of_succ_lt_succ hl)
  · -- a payload at the activation would leave the stack with the next transition
    have hnext : p.run (m + 2) = (p.run (m + 1)).world.unwind payload k := by
      rw [run_succ_step, ← hf payload, ← step_unwind, ← hp]
    obtain rfl | hlt : n = m + 1 ∨ m + 2 < n + 1 := by omega
    · cases h.returns.symm.trans hnext
    · have hdeep := h.inside (m + 2) hlt (Nat.succ_pos _)
      rw [hnext] at hdeep
      exact absurd hdeep (Nat.lt_irrefl _)

theorem Yields.run {k : Pending c} {result : c.Result} (h : p.Yields k n w result) (hm : m < n) :
    (p.run m).Yields k (n - m) w result := by
  refine ⟨Nat.sub_pos_of_lt hm, fun l hl hpos => ?_, ?_⟩
  · rw [← run_add]
    exact h.inside (m + l) (by omega) (by omega)
  · rw [← run_add, Nat.add_sub_cancel' (Nat.le_of_lt hm)]
    exact h.returns

/-- The passes that a run makes in the first transitions. It makes a pass only if no stop is asked
for. -/
inductive Rounds (q : Nat) (k : Pending .run) : Nat → Process → Prop
  | refl (p : Process) : Rounds q k 0 p
  | pass {p : Process} {m n r : Nat} {w : World} (going : p.world.stopping q = false)
      (first : p.Passes q (.cons (.drain q) k) m w r) (rest : (p.run m).Rounds q k n) :
      Rounds q k (m + n) p

section Runs

variable {k : Pending .run}

theorem upon_startPass (w : World) (q : Nat) (k : Pending .pass) :
    (w.startPass q k).control.Upon k :=
  (World.minds_startPass (S := fun _ => True) (E := True) (B := True) trivial w k
    fun _ _ => trivial).stack.upon

theorem Draining.upon (h : p.Draining q k) : p.step.control.Upon k := by
  rw [h.step]
  exact (World.minds_drainOn (S := fun _ => True) (E := True) (B := True) (fun _ _ => trivial) trivial
    p.world k fun _ _ => trivial).stack.upon

theorem Draining.passes (h : p.Draining q k) (hQ : p.world.queue? q = some Q)
    (hidle : Q.current = none) (hreturns : p.Yields k n w o) (hmore : 1 < n) :
    p.world.stopping q = false ∧
      ∃ m w₁ r, m < n ∧ p.Passes q (.cons (.drain q) k) m w₁ r := by
  have hdeep := hreturns.inside 1 hmore Nat.one_pos
  rw [show p.run 1 = p.step from run_succ_step p 0] at hdeep
  have hstep := h.step
  simp only [World.drainOn, hQ] at hstep
  split at hstep
  · rw [hstep] at hdeep
    exact absurd hdeep (Nat.lt_irrefl _)
  · next hstop =>
    split at hstep
    · rw [hstep] at hdeep
      exact absurd hdeep (Nat.lt_irrefl _)
    · have hupon : p.step.control.Upon (.cons (.drain q) k) := by
        rw [hstep]
        exact upon_startPass ..
      obtain ⟨m, w₁, r, hm, hpass⟩ := hreturns.inner (by decide) (fun _ _ => rfl) hupon
      exact ⟨(World.stopping_eq hQ).trans (Bool.eq_false_iff.2 hstop), m, w₁, r, hm, hstep, h.turns,
        ⟨Q, hQ, hidle⟩, hpass.lasts, hpass.inside, hpass.returns⟩

/-- A run that comes to its end has made some passes, and ends where the next one would begin. -/
theorem Draining.rounds (h : p.Draining q k) (hp : p.Sound) (hQ : p.world.queue? q = some Q)
    (hidle : Q.current = none) (hyields : p.Yields k n w o) :
    ∃ m Q', n = m + 1 ∧ p.Rounds q k m ∧ (p.run m).Draining q k ∧
      (p.run m).world.queue? q = some Q' ∧ Q'.current = none := by
  induction n using Nat.strong_induction_on generalizing p Q with
  | _ n ih =>
    obtain hmore | rfl : 1 < n ∨ n = 1 := by have := hyields.lasts; omega
    · obtain ⟨hgoing, m, w₁, r, hm, hpass⟩ := h.passes hQ hidle hyields hmore
      obtain ⟨Q₁, hQ₁⟩ := hp.exists_queue_run hQ m
      have hidle₁ : Q₁.current = none := by
        rw [← World.current_eq hQ₁, hpass.returns]
        exact hpass.current_eq_none hp
      have hdraining : (p.run m).Draining q k := hpass.returns ▸ draining_deliver w₁ q k r
      obtain ⟨m', Q', hm', hrounds, hends, hQ', hidle'⟩ :=
        ih (n - m) (by have := hpass.lasts; omega) hdraining (hp.run m) hQ₁ hidle₁ (hyields.run hm)
      rw [← run_add] at hends hQ'
      exact ⟨m + m', Q', by omega, .pass hgoing hpass hrounds, hends, hQ', hidle'⟩
    · exact ⟨0, Q, rfl, .refl p, h, hQ, hidle⟩

/-- How a run ends: it finds a request to stop and takes it back, or it finds the queue empty. -/
theorem Draining.ends (h : p.Draining q k) (hQ : p.world.queue? q = some Q)
    (hstep : p.step = w.deliver k o) :
    (o = .stopped ∧ Q.stopping = true ∧ w = p.world.setQueue q { Q with stopping := false }) ∨
      o = .drained ∧ Q.stopping = false ∧ Q.order = [] ∧ w = p.world := by
  have hdrain := h.step.symm.trans hstep
  simp only [World.drainOn, hQ] at hdrain
  split at hdrain
  · next hstop =>
    cases hdrain
    exact .inl ⟨rfl, hstop, rfl⟩
  · next hstop =>
    split at hdrain
    · next hempty =>
      cases hdrain
      exact .inr ⟨rfl, Bool.eq_false_iff.2 hstop, List.isEmpty_iff.1 hempty, rfl⟩
    · have hupon := upon_startPass p.world q (.cons (.drain q) k)
      rw [hdrain] at hupon
      exact absurd hupon.depth_le (Nat.not_succ_le_self _)

theorem Rounds.eq_zero (h : p.Rounds q k m) (hstop : p.world.stopping q = true) : m = 0 := by
  cases h with
  | refl => rfl
  | pass going => cases hstop.symm.trans going

theorem not_stops_deliver (w : World) (k : Pending c) (result : c.Result) :
    ¬ (w.deliver k result).Stops q := by
  rintro ⟨_, h⟩
  cases h

theorem Undisturbed.lower {f : Activation c b} {k : Pending b}
    (h : p.Undisturbed q k n) : p.Undisturbed q (.cons f k) n :=
  fun l hl action haction hrun hin => h l hl action haction hrun (hin.lower (.cons f .refl))

theorem Undisturbed.of_le {k : Pending c} (h : p.Undisturbed q k n) (hmn : m ≤ n) :
    p.Undisturbed q k m := fun l hl => h l (Nat.lt_of_lt_of_le hl hmn)

theorem Undisturbed.run {k : Pending c} (h : p.Undisturbed q k (m + n)) :
    (p.run m).Undisturbed q k n := fun l hl => by
  rw [← run_add]
  exact h (m + l) (Nat.add_lt_add_left hl m)

/-- At the end of the passes a stop is pending if one was pending before or was asked for since. -/
theorem Rounds.stopping_iff (h : p.Rounds q k m) (hp : p.Sound) (hquiet : ¬ p.Stops q)
    (hcalm : p.Undisturbed q k m) :
    (p.run m).world.stopping q = true ↔ p.world.stopping q = true ∨ ∃ l < m, (p.run l).Stops q := by
  induction h with
  | refl p => simp
  | @pass p m n r w going first rest ih =>
    have hfirst := first.stopping_iff hp hquiet (hcalm.of_le (Nat.le_add_right m n)).lower
    have hrest := ih (hp.run m) (by rw [first.returns]; exact not_stops_deliver _ _ _) hcalm.run
    rw [show (p.run m).world = w from congrArg Process.world first.returns] at hrest
    rw [run_add, hrest, hfirst, or_assoc]
    refine or_congr_right ⟨?_, ?_⟩
    · rintro (⟨l, hl, hstops⟩ | ⟨l, hl, hstops⟩)
      · exact ⟨l, Nat.lt_add_right n hl, hstops⟩
      · exact ⟨m + l, Nat.add_lt_add_left hl m, run_add m l p ▸ hstops⟩
    · rintro ⟨l, hl, hstops⟩
      obtain hlt | hle := Nat.lt_or_ge l m
      · exact .inl ⟨l, hlt, hstops⟩
      · refine .inr ⟨l - m, by omega, ?_⟩
        rwa [← run_add, Nat.add_sub_cancel' hle]

theorem Rounds.not_stops (h : p.Rounds q k m) (hquiet : ¬ p.Stops q) : ¬ (p.run m).Stops q := by
  induction h with
  | refl p => exact hquiet
  | @pass p m n r w going first rest ih =>
    rw [run_add]
    refine ih ?_
    rw [first.returns]
    exact not_stops_deliver _ _ _

/-- A request to stop is made in the last pass. -/
theorem Rounds.last_of_stops (h : p.Rounds q k m) (hp : p.Sound) (hquiet : ¬ p.Stops q)
    (hcalm : p.Undisturbed q k m) (hl : l < m) (hstops : (p.run l).Stops q) :
    ∃ i j w₁ r, m = i + j ∧ i ≤ l ∧ (p.run i).Passes q (.cons (.drain q) k) j w₁ r := by
  induction h generalizing l with
  | refl p => cases hl
  | @pass p m n r w going first rest ih =>
    have hnext : (p.run m).world = w := congrArg Process.world first.returns
    obtain hlt | hle := Nat.lt_or_ge l m
    · have hstop := (first.stopping_iff hp hquiet (hcalm.of_le (Nat.le_add_right m n)).lower).2
        (.inr ⟨l, hlt, hstops⟩)
      obtain rfl := rest.eq_zero (hnext ▸ hstop)
      exact ⟨0, m, w, r, (Nat.zero_add m).symm, Nat.zero_le l, first⟩
    · obtain ⟨i, j, w₁, r', rfl, hi, hpass⟩ := ih (hp.run m)
        (by rw [first.returns]; exact not_stops_deliver _ _ _) hcalm.run (l := l - m) (by omega)
        (by rwa [← run_add, Nat.add_sub_cancel' hle])
      rw [← run_add] at hpass
      exact ⟨m + i, j, w₁, r', (Nat.add_assoc m i j).symm, by omega, hpass⟩

end Runs

theorem draining_startRun {k : Pending .run} (hstep : p.step = p.world.startRun q k)
    (hturns : p.control.turns = k.turns) (hQ : p.world.queue? q = some Q)
    (hidle : Q.current = none) : p.Draining q k := by
  refine ⟨?_, hturns⟩
  simp [hstep, World.startRun, hQ, hidle]

theorem step_runForever {k : Pending .reply} (hp : p.control = .perform (.queue q .runForever) k)
    (hQ : p.world.queue? q = some Q) : p.step = p.world.startRun q (.cons (.forever q) k) := by
  rw [Process.step, hp]
  simp only [World.perform, hQ, World.performOnQueue]

/-- What has come back to the stack has ended. -/
theorem Yields.unique {k : Pending c} {result result₁ : c.Result} (h : p.Yields k n w result)
    (hm : m ≤ n) (hpos : 0 < m) (hback : p.run m = w₁.deliver k result₁) :
    n = m ∧ w₁ = w ∧ result₁ = result := by
  obtain rfl | hlt := Nat.eq_or_lt_of_le hm
  · cases hback.symm.trans h.returns
    exact ⟨rfl, rfl, rfl⟩
  · have hdeep := h.inside m hlt hpos
    rw [hback] at hdeep
    exact absurd hdeep (Nat.lt_irrefl _)

section Requests

variable {k : Pending .reply} {reply : Reply}

/-- A run for ever returns after its last check of the stop flag, which has found a request. -/
theorem Draining.forever (h : p.Draining q (.cons (.forever q) k)) (hp : p.Sound)
    (hQ : p.world.queue? q = some Q) (hidle : Q.current = none) (hyields : p.Yields k n w reply) :
    ∃ m Q', n = m + 2 ∧ (p.run m).world.queue? q = some Q' ∧ Q'.stopping = true ∧
      w = (p.run m).world.setQueue q { Q' with stopping := false } ∧
      p.run (m + 1) = w.deliver (.cons (.forever q) k) .stopped := by
  induction n using Nat.strong_induction_on generalizing p Q with
  | _ n ih =>
    obtain ⟨m, w₁, o, hm, hround⟩ := hyields.inner (by decide) (fun _ _ => rfl) h.upon
    obtain ⟨m, Q₁, rfl, _, hends, hQ₁, hidle₁⟩ := h.rounds hp hQ hidle hround
    have hstep : (p.run m).step = w₁.deliver (.cons (.forever q) k) o := by
      rw [← run_succ_step, hround.returns]
    obtain ⟨rfl, hstop, rfl⟩ | ⟨rfl, hgoing, _, rfl⟩ := hends.ends hQ₁ hstep
    · have hlast : p.run (m + 2) = ((p.run m).world.setQueue q
          { Q₁ with stopping := false }).deliver k .null := by
        rw [run_succ_step, hround.returns]
        exact step_deliver ..
      obtain ⟨rfl, rfl, _⟩ := hyields.unique hm (Nat.succ_pos _) hlast
      exact ⟨m, Q₁, rfl, hQ₁, hstop, rfl, hround.returns⟩
    · -- the queue was empty, and the next run begins
      have hagain : (p.run (m + 1)).Draining q (.cons (.forever q) k) := by
        rw [hround.returns]
        exact draining_startRun (step_deliver ..) rfl hQ₁ hidle₁
      have hQ₂ : (p.run (m + 1)).world.queue? q = some Q₁ := by
        rw [hround.returns]
        exact hQ₁
      obtain ⟨m', Q', hm', hQ', hstop, hw, hlast⟩ :=
        ih (n - (m + 1)) (by omega) hagain (hp.run _) hQ₂ hidle₁ (hyields.run hm)
      rw [← run_add] at hQ' hw hlast
      exact ⟨m + 1 + m', Q', by omega, hQ', hstop, hw, hlast⟩

/-- A run that is asked for outside a step of its queue makes its passes, and then two transitions
more: it ends, and the reply is given. -/
theorem Yields.rounds (hyields : p.Yields k n w reply) (hp : p.Sound)
    (hcontrol : p.control = .perform (.queue q .runOnce) k) (hQ : p.world.queue? q = some Q)
    (hidle : Q.current = none) :
    ∃ m Q' o, n = m + 2 ∧ reply = .outcome o ∧ p.Rounds q (.cons .runReply k) m ∧
      (p.run m).world.queue? q = some Q' ∧ p.run (m + 1) = w.deliver (.cons .runReply k) o ∧
      ((o = .stopped ∧ Q'.stopping = true ∧
          w = (p.run m).world.setQueue q { Q' with stopping := false }) ∨
        o = .drained ∧ Q'.stopping = false ∧ Q'.order = [] ∧ w = (p.run m).world) := by
  have hdraining := draining_perform hcontrol hQ hidle
  obtain ⟨m, w₁, o, hm, hround⟩ := hyields.inner (by decide) (fun _ _ => rfl) hdraining.upon
  obtain ⟨m, Q', rfl, hrounds, hends, hQ', _⟩ := hdraining.rounds hp hQ hidle hround
  have hlast : p.run (m + 2) = w₁.deliver k (.outcome o) := by
    rw [run_succ_step, hround.returns]
    exact step_deliver ..
  obtain ⟨rfl, rfl, rfl⟩ := hyields.unique hm (Nat.succ_pos _) hlast
  have hstep : (p.run m).step = w₁.deliver (.cons .runReply k) o := by
    rw [← run_succ_step, hround.returns]
  exact ⟨m, Q', o, rfl, rfl, hrounds, hQ', hround.returns, hends.ends hQ' hstep⟩

/-- What a run does about requests to stop, from the action that asks for it to its outcome. None is
left. The run is stopped if one was pending or is made, and otherwise the queue is empty. If one was
pending, no task is stepped. If one is made, that is in a pass, which is finished and is the last. -/
structure ObeysStops (q : Nat) (k : Pending .reply) (n : Nat) (w : World) (outcome : RunOutcome)
    (p : Process) : Prop where
  clear : w.stopping q = false
  stopped : outcome = .stopped ↔ p.world.stopping q = true ∨ ∃ l < n, (p.run l).Stops q
  drained : outcome = .drained → ∃ Q, w.queue? q = some Q ∧ Q.count = 0
  pending : p.world.stopping q = true → ∀ q', p.stepped q' n = []
  finishes : ∀ l < n, (p.run l).Stops q → ∃ i j w₁ r, i ≤ l ∧ l < i + j ∧
    (p.run i).Passes q (.cons (.drain q) (.cons .runReply k)) j w₁ r ∧
    (p.run i).Completed q (.cons (.drain q) (.cons .runReply k)) j w₁ ∧
    n = i + j + 2 ∧ p.run (i + j + 1) = w.deliver (.cons .runReply k) .stopped

theorem stepped_two (hone : (p.run 1).control.turns = p.control.turns)
    (htwo : (p.run 2).control.turns = p.control.turns) (q : Nat) : p.stepped q 2 = [] := by
  have hfirst : p.begun? q = none := begun?_eq_none_of_length (by
    rw [show p.step = p.run 1 from (run_succ_step p 0).symm, hone])
  have hsecond : (p.run 1).begun? q = none := begun?_eq_none_of_length (by
    rw [← run_succ_step, htwo, hone])
  simp [stepped, List.range_succ, hfirst, hsecond]

theorem Yields.obeysStops (hyields : p.Yields k n w reply) (hp : p.Sound)
    (hcontrol : p.control = .perform (.queue q .runOnce) k) (hQ : p.world.queue? q = some Q)
    (hidle : Q.current = none) (hcalm : p.Undisturbed q k n) :
    ∃ outcome, reply = .outcome outcome ∧ p.ObeysStops q k n w outcome := by
  obtain ⟨m, Q', o, rfl, rfl, hrounds, hQ', hlast, hends⟩ := hyields.rounds hp hcontrol hQ hidle
  have hquiet : ¬ p.Stops q := by
    rintro ⟨_, hstop⟩
    cases hcontrol.symm.trans hstop
  have hcalm' : p.Undisturbed q (.cons .runReply k) m := (hcalm.of_le (Nat.le_add_right m 2)).lower
  have hduring : ∀ l < m + 2, (p.run l).Stops q → l < m := fun l hl hstops => by
    obtain hlt | rfl | rfl : l < m ∨ l = m ∨ l = m + 1 := by omega
    · exact hlt
    · exact absurd hstops (hrounds.not_stops hquiet)
    · rw [hlast] at hstops
      exact absurd hstops (not_stops_deliver _ _ _)
  have hflag : Q'.stopping = true ↔
      p.world.stopping q = true ∨ ∃ l < m + 2, (p.run l).Stops q := by
    rw [← World.stopping_eq hQ', hrounds.stopping_iff hp hquiet hcalm']
    refine or_congr_right ⟨fun ⟨l, hl, hstops⟩ => ⟨l, by omega, hstops⟩, fun ⟨l, hl, hstops⟩ => ?_⟩
    exact ⟨l, hduring l hl hstops, hstops⟩
  refine ⟨o, rfl, ?_, ?_, ?_, fun hstop q' => ?_, fun l hl hstops => ?_⟩
  · obtain ⟨_, _, rfl⟩ | ⟨_, hgoing, _, rfl⟩ := hends
    · exact World.stopping_eq (World.queue?_setQueue_self hQ' _)
    · exact (World.stopping_eq hQ').trans hgoing
  · rw [← hflag]
    obtain ⟨rfl, hstop, _⟩ | ⟨rfl, hgoing, _⟩ := hends
    · exact iff_of_true rfl hstop
    · exact iff_of_false RunOutcome.noConfusion (by rw [hgoing]; exact Bool.noConfusion)
  · rintro rfl
    obtain ⟨he, _⟩ | ⟨_, _, hempty, rfl⟩ := hends
    · cases he
    · exact ⟨Q', hQ', by rw [Queue.count, hempty]; rfl⟩
  · obtain rfl := hrounds.eq_zero hstop
    refine stepped_two ?_ ?_ q'
    · rw [hlast, hcontrol]
      rfl
    · rw [hyields.returns, hcontrol]
      rfl
  · obtain ⟨i, j, w₁, r, rfl, hi, hpass⟩ :=
      hrounds.last_of_stops hp hquiet hcalm' (hduring l hl hstops) hstops
    have hstopped : o = .stopped := by
      obtain ⟨rfl, _⟩ | ⟨_, hgoing, _⟩ := hends
      · rfl
      · cases hgoing.symm.trans (hflag.2 (.inr ⟨l, hl, hstops⟩))
    exact ⟨i, j, w₁, r, hi, hduring l hl hstops, hpass, hpass.completed (hp.run i), rfl,
      hstopped ▸ hlast⟩

/-- Requests to stop are neither lost nor carried over. A run that is asked for outside a step of its
queue, and returns while no destructor runs the queue, obeys them. A run that is asked for inside a
step does nothing, not even use up a request that is pending. A run for ever returns only if it is
asked for inside a step, or because it has just used up a request. -/
theorem Reachable.stop_requests (h : p.Reachable) (hQ : p.world.queue? q = some Q)
    (k : Pending .reply) :
    (∀ n w reply, p.control = .perform (.queue q .runOnce) k → Q.current = none →
      p.Yields k n w reply → p.Undisturbed q k n →
      ∃ outcome, reply = .outcome outcome ∧ p.ObeysStops q k n w outcome) ∧
    (p.control = .perform (.queue q .runOnce) k → Q.current ≠ none →
      p.run 2 = p.world.deliver k (.outcome .stopped)) ∧
    ∀ n w reply, p.control = .perform (.queue q .runForever) k → p.Yields k n w reply →
      Q.current ≠ none ∨ ∃ m Q', n = m + 2 ∧ (p.run m).world.queue? q = some Q' ∧
        Q'.stopping = true ∧ w = (p.run m).world.setQueue q { Q' with stopping := false } ∧
        p.run (m + 1) = w.deliver (.cons (.forever q) k) .stopped := by
  have hp := h.sound
  refine ⟨fun n w reply hcontrol hidle hyields hcalm => ?_, fun hcontrol hactive => ?_,
    fun n w reply hcontrol hyields => ?_⟩
  · exact hyields.obeysStops hp hcontrol hQ hidle hcalm
  · obtain ⟨id, hc⟩ := Option.ne_none_iff_exists'.1 hactive
    have hcurrent : p.world.current q = some id := (World.current_eq hQ).trans hc
    have hm := (hp.current_eq_some_iff (by rw [hcontrol]; exact Control.noConfusion)).1 hcurrent
    obtain ⟨w, control⟩ := p
    obtain rfl : control = _ := hcontrol
    have hrun : (Action.queue q .runOnce).run? = some q := rfl
    obtain ⟨_, _, _, _, htwo⟩ := run_of_running (hp.ready.running hm) hrun k
    exact htwo
  · by_cases hidle : Q.current = none
    · have hstart := step_runForever hcontrol hQ
      exact .inr ((draining_startRun hstart (by rw [hcontrol]; rfl) hQ hidle).forever hp hQ hidle
        hyields)
    · exact .inl hidle

end Requests

/-- A task asks for a stop and for a run of its own queue, with another task behind it. This is a run
of the queue after so many transitions. -/
def halting (action : QueueAction Action) : Nat → Process :=
  during [{}] []
    [.act (.queue 0 (.idle "A" [⟨[.queue 0 .stop, .queue 0 .runOnce], .again⟩] none)),
      .act (.queue 0 (.idle "B" [⟨[], .again⟩] none))]
    (.act (.queue 0 action))

theorem reachable_halting (action : QueueAction Action) (n : Nat) : (halting action n).Reachable :=
  reachable_during n (by decide +kernel) (by decide +kernel)

/-- The run is stopped after its first pass, and so is a run for ever. The run inside the step leaves
the request alone. -/
theorem stop_requests_halting :
    (halting .runOnce 1).Stops 0 ∧
    (halting .runOnce 0).ObeysStops 0 .outermost 14 (halting .runOnce 14).world .stopped ∧
    (halting .runOnce 3).world.stopping 0 = true ∧
    (halting .runOnce 3).run 2 = (halting .runOnce 3).world.deliver
      (halting .runOnce 3).control.actionStack (.outcome .stopped) ∧
    ∃ Q, (halting .runForever 12).world.queue? 0 = some Q ∧ Q.stopping = true ∧
      (halting .runForever 14).world =
        (halting .runForever 12).world.setQueue 0 { Q with stopping := false } := by
  have hstops : (halting .runOnce 1).Stops 0 := ⟨(halting .runOnce 1).control.actionStack, by cbv⟩
  have hidle : ((halting .runOnce 0).world.queue? 0).map (·.current) = some none ∧
      ((halting .runForever 0).world.queue? 0).map (·.current) = some none := by decide +kernel
  have hactive : ((halting .runOnce 3).world.queue? 0).map (fun Q => (Q.current, Q.stopping)) =
      some (some ⟨1, 1⟩, true) := by decide +kernel
  have hinside : ∀ l < 14, 0 < l → 0 < ((halting .runOnce 0).run l).control.depth ∧
      0 < ((halting .runForever 0).run l).control.depth := by decide +kernel
  have hdestructors : ∀ l < 14, ((halting .runOnce 0).run l).control.destructors = 0 := by
    decide +kernel
  have honce : (halting .runOnce 0).Yields .outermost 14 (halting .runOnce 14).world
      (.outcome .stopped) := by
    refine ⟨by decide, fun l hl hpos => (hinside l hl hpos).1, eq_deliver ?_⟩
    cbv
  have hforever : (halting .runForever 0).Yields .outermost 14 (halting .runForever 14).world
      .null := by
    refine ⟨by decide, fun l hl hpos => (hinside l hl hpos).2, eq_deliver ?_⟩
    cbv
  have hnested : (halting .runOnce 3).control =
      .perform (.queue 0 .runOnce) (halting .runOnce 3).control.actionStack := by cbv
  obtain ⟨Q, hQ, hc⟩ := Option.map_eq_some_iff.1 hidle.1
  obtain ⟨Q₁, hQ₁, hc₁⟩ := Option.map_eq_some_iff.1 hidle.2
  obtain ⟨Q₃, hQ₃, hc₃⟩ := Option.map_eq_some_iff.1 hactive
  obtain ⟨hc₃, hstop₃⟩ := Prod.mk.inj hc₃
  obtain ⟨outcome, houtcome, hobeys⟩ := ((reachable_halting .runOnce 0).stop_requests hQ
    .outermost).1 14 _ _ (by cbv) hc honce fun l hl _ _ _ hin => by
      rw [InDestructor, hdestructors l hl] at hin
      exact absurd hin (Nat.not_lt_zero _)
  cases houtcome
  have hignored := ((reachable_halting .runOnce 3).stop_requests hQ₃ _).2.1 hnested
    (by rw [hc₃]; exact Option.some_ne_none _)
  obtain hnot | ⟨m, Q', hm, hQ', hstop, hw, _⟩ :=
    ((reachable_halting .runForever 0).stop_requests hQ₁ .outermost).2.2 14 _ _ (by cbv) hforever
  · exact absurd hc₁ hnot
  · obtain rfl : m = 12 := by omega
    exact ⟨hstops, hobeys, (World.stopping_eq hQ₃).trans hstop₃, hignored, Q', hQ', hstop, hw⟩

end Process

end TaskLoop
