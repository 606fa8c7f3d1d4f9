import TaskLoop.Proofs.LastTurn
import TaskLoop.Proofs.StopRequests

namespace TaskLoop

variable {a b c : Hole} {w w₁ w₂ w₃ : World} {q m : Nat} {id : TaskId} {p : Process} {Q Q₁ Q₂ : Queue}
  {task : Task}

def Action.touches (q : Nat) : Action → Bool
  | .queue q' action => q' == q && !action.spares
  | _ => false

def Process.touches (p : Process) (q : Nat) : Bool := p.control.action?.any (Action.touches q)

def Process.barks (p : Process) (q : Nat) : Bool :=
  ((p.begun? q).bind (p.world.task? q)).any (Task.barks p.world.now (p.world.order q).length)

namespace Process

theorem touches_eq_false {action : Action} (h : p.touches q = false)
    (haction : p.control.action? = some action) : action.touches q = false := by
  rw [touches, haction] at h
  exact h

theorem barks_eq_false (h : p.barks q = false) (hbegins : p.Begins q id)
    (ht : p.world.task? q id = some task) :
    task.barks p.world.now (p.world.order q).length = false := by
  rw [barks, begun?_eq_some.2 hbegins, Option.bind_some, ht] at h
  exact h

/-- On top of a stack, with no role for the queue, a transition that leaves the queue alone gives it
none, and tells its observer something at most. -/
theorem topped_elsewhere {k : Pending c} (h : p.control.Topped (·.queue ≠ q) k)
    (hdeep : k.depth < p.control.depth) (hapart : p.touches q = false)
    (halive : p.step.control ≠ .aborted) :
    p.step.control.Topped (·.queue ≠ q) k ∧
      Option.Rel Queue.Notified (p.world.queue? q) (p.step.world.queue? q) := by
  by_cases hrole : ∃ role, p.control.role? = some role ∧ role.queue = q
  · obtain ⟨role, hrole, hq⟩ := hrole
    obtain ⟨w, control⟩ := p
    cases control with
    | perform action k' =>
      obtain ⟨action, rfl⟩ : ∃ queueAction, action = .queue q queueAction := by
        cases action with
        | queue q' action =>
          refine ⟨action, ?_⟩
          rw [← hq]
          cases action <;> cases hrole <;> rfl
        | _ => cases hrole
      have hspares : action.spares = true := by
        simpa [Action.touches] using touches_eq_false (p := ⟨w, _⟩) hapart rfl
      obtain ⟨reply, w', hstep, hbeside⟩ := w.perform_of_spares (q := q) hspares k'
      rw [show step ⟨w, .perform (.queue q action) k'⟩ = w'.deliver k' reply from hstep]
      exact ⟨h, hbeside.queues q⟩
    | deliver result k' | unwind payload k' =>
      cases h with
      | refl => exact absurd hdeep (Nat.lt_irrefl _)
      | cons elsewhere _ => exact absurd hq (elsewhere role hrole)
    | answered | escaped | aborted => cases hrole
  · have hother : ∀ role, p.control.role? = some role → role.queue ≠ q :=
      fun role hr hq => hrole ⟨role, hr, hq⟩
    have hsame := queue?_step hother
    refine ⟨(topped_step h hdeep fun role hr role' hmakes => ?_).resolve_right halive,
      hsame ▸ World.rel_refl Queue.Notified.refl _⟩
    cases role with
    | pass q' =>
      rw [show role' = .pass q' from hmakes]
      exact hother _ hr
    | run q' =>
      rw [show role'.queue = q' from hmakes]
      exact hother _ hr

end Process

/-- The queue during the turn of a task: there may be another record for the task, and messages. -/
structure Queue.SparedBy (id : TaskId) (Q Q₁ : Queue) : Prop where
  order : Q₁.order = Q.order
  current : Q₁.current = Q.current
  stopping : Q₁.stopping = Q.stopping
  stats : Q₁.stats = Q.stats
  others : ∀ id', id' ≠ id → Q₁.get? id' = Q.get? id'

namespace Queue.SparedBy

theorem trans (h : Q.SparedBy id Q₁) (h' : Q₁.SparedBy id Q₂) : Q.SparedBy id Q₂ :=
  ⟨h'.order.trans h.order, h'.current.trans h.current, h'.stopping.trans h.stopping,
    h'.stats.trans h.stats, fun id' hid => (h'.others id' hid).trans (h.others id' hid)⟩

theorem modify (Q : Queue) (id : TaskId) (f : Task → Task) : Q.SparedBy id (Q.modify id f) :=
  ⟨rfl, rfl, rfl, rfl, fun id' hid => by rw [Queue.get?_modify, if_neg hid]⟩

theorem of_notified (h : Q.Notified Q₁) : Q.SparedBy id Q₁ := by
  obtain ⟨_, rfl⟩ := h
  exact ⟨rfl, rfl, rfl, rfl, fun _ _ => rfl⟩

end Queue.SparedBy

def World.Shields (q : Nat) (id : TaskId) (w w₁ : World) : Prop :=
  ∀ Q, w.queue? q = some Q → ∃ Q₁, w₁.queue? q = some Q₁ ∧ Q.SparedBy id Q₁

namespace World

theorem shields_of_notified (h : Option.Rel Queue.Notified (w.queue? q) (w₁.queue? q)) :
    w.Shields q id w₁ := fun _ hQ => by
  obtain ⟨Q₁, hQ₁, hnotified⟩ := queue?_of_rel_left h hQ
  exact ⟨Q₁, hQ₁, .of_notified hnotified⟩

theorem Beside.shields (h : w.Beside w₁) : w.Shields q id w₁ := shields_of_notified (h.queues q)

theorem Shields.refl (w : World) : w.Shields q id w := (Beside.refl w).shields

theorem current_of_notified (h : Option.Rel Queue.Notified (w.queue? q) (w₁.queue? q)) :
    w₁.current q = w.current q := by
  rw [current, current]
  generalize w.queue? q = o, w₁.queue? q = o₁ at h
  cases h with
  | none => rfl
  | some h =>
    obtain ⟨_, rfl⟩ := h
    rfl

theorem Shields.trans (h : w₁.Shields q id w₂) (h' : w₂.Shields q id w₃) : w₁.Shields q id w₃ :=
  fun Q hQ => by
    obtain ⟨Q₁, hQ₁, hspared⟩ := h Q hQ
    obtain ⟨Q₂, hQ₂, hspared'⟩ := h' Q₁ hQ₁
    exact ⟨Q₂, hQ₂, hspared.trans hspared'⟩

theorem Aside.shields {T : Nat → Prop} (h : w.Aside T w₁) : w.Shields q id w₁ := h.beside.shields

theorem shields_setQueue (hQ : w.queue? q = some Q) (f : Task → Task) :
    w.Shields q id (w.setQueue q (Q.modify id f)) := fun Q' hQ' => by
  obtain rfl := Option.some.inj (hQ.symm.trans hQ')
  exact ⟨_, queue?_setQueue_self hQ _, .modify Q id f⟩

theorem shields_modifyQueue (w : World) (q : Nat) (id : TaskId) (f : Task → Task) :
    w.Shields q id (w.modifyQueue q (·.modify id f)) := fun Q hQ =>
  ⟨Q.modify id f, by rw [queue?_modifyQueue, hQ]; rfl, .modify Q id f⟩

end World

def Walk.after (walk : Walk) : Verdict → Walk
  | .done => { walk with stepped := walk.stepped + 1, completed := walk.completed + 1 }
  | .again => { walk with stepped := walk.stepped + 1 }

namespace Process

/-- The step of a task in its turn, with nothing on the stack for its queue but, in the step of a
timer or a script, the activation that awaits the end of the callback or of the call. -/
inductive InStep (q : Nat) (id : TaskId) (k : Pending .verdict) (p : Process) : Prop
  | plain (stack : p.control.Topped (·.queue ≠ q) k)
  | firing (stack : p.control.Topped (·.queue ≠ q) (.cons (.firing q id) k))
  | script {t : ScriptTask} {base : Nat}
      (stack : p.control.Topped (·.queue ≠ q) (.cons (.script q id t base) k))

structure Shields (q : Nat) (id : TaskId) (w : World) (k : Pending .verdict) (p : Process) :
    Prop where
  world : w.Shields q id p.world
  stack : p.InStep q id k

end Process

namespace World

open Process

variable {k : Pending .verdict}

theorem shields_deliver (h : w.Shields q id w₁) (k : Pending .verdict) (verdict : Verdict) :
    (w₁.deliver k verdict).Shields q id w k := ⟨h, .plain .refl⟩

theorem length_order (w : World) (q : Nat) :
    (w.order q).length = ((w.queue? q).map (·.count)).getD 0 := by
  rw [order]
  cases w.queue? q <;> rfl

theorem lasting_shields (w : World) (q : Nat) (id : TaskId) (T : Nat → Prop) :
    Lasting T (w.Shields q id) := fun _ _ h h' => h.trans h'.shields

/-- The step of a task begins, and the queue is spared unless a watchdog interrupts everything. -/
theorem shields_stepTask (w : World) (q : Nat) (id : TaskId) (task : Task) (k : Pending .verdict)
    (hquiet : task.barks w.now (w.order q).length = false) :
    (w.stepTask q id task k).Shields q id w k := by
  have hallows : w.Allows (Shields q id) q id task :=
    { refl := Shields.refl w
      trans := Shields.trans
      log := fun w₁ _ _ => Shields.refl w₁
      rewrite := fun w₁ task' _ _ => shields_modifyQueue w₁ q id fun _ => task'
      hook := fun w₁ t _ _ => (aside_installHook (T := fun _ => True) w₁ q t.engine trivial).shields
      alarm := fun hbarks => by
        rw [← length_order, hquiet] at hbarks
        cases hbarks }
  have hstepping := hallows.stepping (lasting_shields w q id fun _ => True).robust k
  generalize w.stepTask q id task k = p at hstepping ⊢
  cases hstepping with
  | verdict world => exact shields_deliver world k _
  | @within _ f _ steps within =>
    refine ⟨within.world, ?_⟩
    have htopped := within.stack.topped (S := (·.queue ≠ q))
    cases f with
    | idle | quiet | rested => exact .plain (htopped.trans (Pending.topped_cons rfl k))
    | firing =>
      obtain ⟨rfl, rfl, _⟩ := steps
      exact .firing htopped
    | script =>
      obtain ⟨rfl, rfl, _⟩ := steps
      exact .script htopped
    | cleanup => exact steps.elim

theorem within_stepTimer (id : TaskId) {t : TimerTask} (hQ : w.queue? q = some Q)
    (halive : t.alive = true) (hdue : t.deadline ≤ w.now) (k : Pending .verdict) :
    (w.stepTimer q id t k).Within
      (fun w₁ => w₁.queue? q = some (Q.modify id fun _ => .timer { t with fires := t.fires.tail }))
      (.cons (.firing q id) k) := by
  unfold stepTimer
  rw [halive, Bool.not_true, if_neg Bool.false_ne_true, if_neg (UInt64.not_lt.2 hdue)]
  refine within_callBack ?_ _ _
  rw [queue?_modifyQueue, queue?_logged, hQ]
  rfl

theorem timerFired_once {t : TimerTask} (hQ : w.queue? q = some Q)
    (ht : Q.record? id = some (.timer t)) (honce : t.interval = none) (k : Pending .verdict) :
    w.timerFired q id k = w.deliver k .done := by
  simp only [timerFired, hQ, ht, honce]

theorem shields_timerFired (w : World) (q : Nat) (id : TaskId) (k : Pending .verdict) :
    (w.timerFired q id k).Shields q id w k := by
  obtain ⟨w', verdict, heq, rfl | ⟨Q, t, deadline, hQ, _, rfl⟩⟩ := timerFired_eq w q id k
  · exact heq ▸ shields_deliver (.refl w') k verdict
  · exact heq ▸ shields_deliver (shields_setQueue hQ _) k verdict

theorem shields_scriptReturned (w : World) (q : Nat) (id : TaskId) (t : ScriptTask) (base : Nat)
    (result : Except CallError Unit) (k : Pending .verdict) :
    (w.scriptReturned q id t base result k).Shields q id w k := by
  obtain ⟨w₀, w₁, heq, rfl | ⟨text, rfl⟩, haside⟩ :=
    w.scriptReturned_eq (T := fun _ => True) q id t base result k fun _ => trivial
  · rw [heq]
    exact shields_deliver haside.shields k _
  · rw [heq]
    exact shields_deliver ((beside_notify w q _ _).shields.trans haside.shields) k _

end World

namespace Process

variable {k : Pending .verdict}

theorem InStep.step (h : p.InStep q id k) (hdeep : k.depth < p.control.depth)
    (hapart : p.touches q = false) (halive : p.step.control ≠ .aborted) :
    p.step.Shields q id p.world k := by
  have helsewhere : ∀ {c : Hole} {k' : Pending c}, p.control.Topped (·.queue ≠ q) k' →
      k'.depth < p.control.depth →
      p.step.control.Topped (·.queue ≠ q) k' ∧ p.world.Shields q id p.step.world := by
    intro c k' hstack hk
    obtain ⟨hstack', hnotified⟩ := topped_elsewhere hstack hk hapart halive
    exact ⟨hstack', World.shields_of_notified hnotified⟩
  cases h with
  | plain stack =>
    obtain ⟨hstack, hshields⟩ := helsewhere stack hdeep
    exact ⟨hshields, .plain hstack⟩
  | firing stack =>
    cases Process.holds stack.upon (by decide) with
    | above deeper _ =>
      obtain ⟨hstack, hshields⟩ := helsewhere stack deeper
      exact ⟨hshields, .firing hstack⟩
    | result w complaint =>
      rw [World.deliver, step_deliver]
      exact World.shields_timerFired w q id k
    | payload w payload =>
      rw [World.unwind, step_unwind]
      exact ⟨.refl w, .plain .refl⟩
  | @script t base stack =>
    cases Process.holds stack.upon (by decide) with
    | above deeper _ =>
      obtain ⟨hstack, hshields⟩ := helsewhere stack deeper
      exact ⟨hshields, .script hstack⟩
    | result w result =>
      rw [World.deliver, step_deliver]
      exact World.shields_scriptReturned w q id t base result k
    | payload w payload =>
      rw [World.unwind, step_unwind, Activation.unwind]
      split
      · exact World.shields_scriptReturned w q id t base _ k
      · exact ⟨.refl w, .plain .refl⟩

theorem ne_aborted_of_depth {d : Nat} (h : d < p.control.depth) : p.control ≠ .aborted := by
  intro ha
  rw [ha] at h
  exact absurd h (Nat.not_lt_zero _)

theorem Shields.run (h : p.Shields q id w k) (hdeep : ∀ l < m, k.depth < (p.run l).control.depth)
    (hapart : ∀ l < m, (p.run l).touches q = false) (halive : (p.run m).control ≠ .aborted) :
    (p.run m).Shields q id w k := by
  induction m with
  | zero => exact h
  | succ m ih =>
    have hbefore := ne_aborted_of_depth (hdeep m (Nat.lt_succ_self m))
    obtain ⟨hworld, hstack⟩ := ih (fun l hl => hdeep l (Nat.lt_succ_of_lt hl))
      (fun l hl => hapart l (Nat.lt_succ_of_lt hl)) hbefore
    rw [run_succ_step] at halive ⊢
    obtain ⟨hworld', hstack'⟩ := hstack.step (hdeep m (Nat.lt_succ_self m))
      (hapart m (Nat.lt_succ_self m)) halive
    exact ⟨hworld.trans hworld', hstack'⟩

/-- What runs elsewhere on top of a stack leaves the queue as it is, but for what its observer is told. -/
theorem notified_elsewhere {k : Pending c} (h : p.control.Topped (·.queue ≠ q) k)
    (hdeep : ∀ l < m, k.depth < (p.run l).control.depth)
    (hapart : ∀ l < m, (p.run l).touches q = false) (halive : (p.run m).control ≠ .aborted) :
    (p.run m).control.Topped (·.queue ≠ q) k ∧
      Option.Rel Queue.Notified (p.world.queue? q) ((p.run m).world.queue? q) := by
  induction m with
  | zero => exact ⟨h, World.rel_refl Queue.Notified.refl _⟩
  | succ m ih =>
    have hbefore := ne_aborted_of_depth (hdeep m (Nat.lt_succ_self m))
    obtain ⟨hstack, hnotified⟩ := ih (fun l hl => hdeep l (Nat.lt_succ_of_lt hl))
      (fun l hl => hapart l (Nat.lt_succ_of_lt hl)) hbefore
    rw [run_succ_step] at halive ⊢
    obtain ⟨hstack', hnotified'⟩ := topped_elsewhere hstack (hdeep m (Nat.lt_succ_self m))
      (hapart m (Nat.lt_succ_self m)) halive
    exact ⟨hstack', World.rel_trans (R := Queue.Notified) Queue.Notified.trans hnotified hnotified'⟩

theorem stepped_add (p : Process) (q m n : Nat) :
    p.stepped q (m + n) = p.stepped q m ++ (p.run m).stepped q n := by
  simp only [stepped, List.range_add, List.filterMap_append, List.filterMap_map, Function.comp_def,
    run_add]

theorem stepped_eq_nil {n : Nat} (h : ∀ l < n, (p.run l).begun? q = none) : p.stepped q n = [] := by
  rw [stepped, List.filterMap_eq_nil_iff]
  exact fun l hl => h l (List.mem_range.1 hl)

/-- What is started over a stack and stays deeper is on top of it. -/
theorem stays_of_deep {k : Pending c} {l : Nat} (hc : c ≠ .reply) (hupon : p.step.control.Upon k)
    (hdeep : ∀ l < m, 0 < l → k.depth < (p.run l).control.depth) (hl : l < m) :
    (p.run (l + 1)).Stays k := by
  rw [run_succ]
  refine stays_run hc hupon fun j hj hback => ?_
  have hd := hdeep (j + 1) (by omega) (Nat.succ_pos j)
  rw [run_succ] at hd
  obtain ⟨_, hcontrol⟩ | ⟨_, hcontrol⟩ := hback <;>
  · rw [hcontrol] at hd
    exact absurd hd (Nat.lt_irrefl _)

/-- The activation that is given a result is the one that was there from the start. -/
theorem Yields.activation_eq {f g : Activation c b} {k : Pending b} {result : c.Result}
    (h : p.Yields (.cons f k) m w result) (hc : c ≠ .reply)
    (hupon : p.step.control.Upon (.cons g k)) : f = g := by
  obtain ⟨m, rfl⟩ := Nat.exists_eq_add_one.2 h.lasts
  obtain hstill | haborted := stays_of_deep hc hupon h.inside (Nat.lt_succ_self m)
  · rw [h.returns] at hstill
    cases hstill with
    | refl => rfl
    | cons _ above => exact absurd above.depth_le (Nat.not_succ_le_self _)
  · rw [h.returns] at haborted
    cases haborted

section Turns

variable {k : Pending .pass} {walk : Walk} {next : Option TaskId} {v : Verdict}
  {kept rest : List TaskId}

structure Strides (q : Nat) (k : Pending .pass) (next : Option TaskId) (walk : Walk) (p : Process) :
    Prop where
  step : p.step = p.world.walkOn q next walk k
  turns : p.control.turns = k.turns

theorem Strides.stepTask (h : p.Strides q k (some id) walk) (ht : p.world.task? q id = some task) :
    p.step = (p.world.modifyQueue q (·.enter id)).stepTask q id task
      (.cons (.turn q id { walk with visited := id :: walk.visited }) k) := by
  rw [h.step, World.walkOn, show p.world.queue? q >>= (·.get? id) = some task from ht]

theorem Strides.upon (h : p.Strides q k (some id) walk) (ht : p.world.task? q id = some task) :
    p.step.control.Upon (.cons (.turn q id { walk with visited := id :: walk.visited }) k) := by
  rw [h.step]
  exact (World.upon_walkOn ht walk k).2

/-- The turn that gives the verdict is the one that begins here. -/
theorem Strides.walk_eq {walk' : Walk} (h : p.Strides q k (some id) walk)
    (ht : p.world.task? q id = some task) (hyields : p.Yields (.cons (.turn q id walk') k) m w v) :
    walk' = { walk with visited := id :: walk.visited } := by
  cases hyields.activation_eq (by decide) (h.upon ht)
  rfl

/-- One task of the queue is stepped from the beginning of its turn to its verdict. -/
theorem Sound.stepped_turn (hp : p.Sound) (hbegins : p.Begins q id)
    (hupon : p.step.control.Upon (.cons (.turn q id walk) k))
    (hyields : p.Yields (.cons (.turn q id walk) k) m w v) : p.stepped q m = [id] := by
  obtain ⟨m, rfl⟩ := Nat.exists_eq_add_one.2 hyields.lasts
  have hquiet : (p.run 1).stepped q m = [] := stepped_eq_nil fun l hl => by
    rw [← run_add, Nat.add_comm]
    have halive := ne_aborted_of_depth (hyields.inside (l + 1) (by omega) (Nat.succ_pos l))
    have hstill := (stays_of_deep (by decide) hupon hyields.inside (by omega)).resolve_right halive
    have hturn : (q, id) ∈ (p.run (l + 1)).control.turns :=
      hstill.turns.subset (List.mem_cons_self ..)
    have hs := hp.run (l + 1)
    exact hs.begun?_eq_none_of_running (hs.ready.running hturn)
  rw [Nat.add_comm, stepped_add, hquiet, List.append_nil]
  simp [stepped, begun?_eq_some.2 hbegins]

/-- A turn that gives a verdict and spares its queue. -/
theorem Strides.turn {walk' : Walk} (h : p.Strides q k (some id) walk) (hp : p.Sound)
    (hQ : p.world.queue? q = some Q) (hqueued : id ∈ Q.order)
    (hyields : p.Yields (.cons (.turn q id walk') k) m w v)
    (hquiet : p.barks q = false) (hapart : ∀ l < m, 0 < l → (p.run l).touches q = false) :
    p.run m = w.deliver (.cons (.turn q id { walk with visited := id :: walk.visited }) k) v ∧
      p.stepped q m = [id] ∧ ∃ Q₁, w.queue? q = some Q₁ ∧ (Q.enter id).SparedBy id Q₁ := by
  obtain ⟨task, hg⟩ := ((hp.queues q Q hQ).order id).1 hqueued
  have ht : p.world.task? q id = some task := World.task?_eq_some.2 ⟨Q, hQ, hg⟩
  have hbegins := begins_walkOn h.step h.turns ht
  obtain rfl := h.walk_eq ht hyields
  refine ⟨hyields.returns, hp.stepped_turn hbegins (h.upon ht) hyields, ?_⟩
  obtain ⟨m, rfl⟩ := Nat.exists_eq_add_one.2 hyields.lasts
  have hbarks := barks_eq_false hquiet hbegins ht
  have hshields : p.step.Shields q id (p.world.modifyQueue q (·.enter id))
      (.cons (.turn q id { walk with visited := id :: walk.visited }) k) := by
    rw [h.stepTask ht]
    have horder : (p.world.modifyQueue q (·.enter id)).order q = p.world.order q :=
      World.order_modifyQueue fun _ => rfl
    refine World.shields_stepTask _ q id task _ ?_
    rw [horder]
    exact hbarks
  have hended := (run_succ m p).symm.trans hyields.returns
  have hrun := hshields.run (m := m)
    (fun l hl => run_succ l p ▸ hyields.inside (l + 1) (by omega) (Nat.succ_pos l))
    (fun l hl => run_succ l p ▸ hapart (l + 1) (by omega) (Nat.succ_pos l))
    (by rw [hended]; exact Control.noConfusion)
  rw [hended] at hrun
  exact hrun.world (Q.enter id) (by rw [World.queue?_modifyQueue, hQ]; rfl)

def Deep (d n : Nat) (p : Process) : Prop := ∀ l ≤ n, 0 < l → d < (p.run l).control.depth

theorem Yields.deep {k : Pending c} {result : c.Result} {d n : Nat} (h : p.Yields k m w result)
    (hd : d < k.depth) (hn : n ≤ m) : p.Deep d n := by
  intro l hl hpos
  obtain rfl | hlt := Nat.eq_or_lt_of_le (Nat.le_trans hl hn)
  · rw [h.returns]
    exact hd
  · exact Nat.lt_trans hd (h.inside l hlt hpos)

/-- Between two turns nothing happens to the queue while records are destroyed, but for what its observer
is told. -/
theorem Sound.cleared {W : Pending .done} {d : Nat} (hp : p.Sound) (hd : d < W.depth)
    (hstep : p.step = w.destroy task W)
    (hdestructor : p.step.control.Upon (.cons .unheeded W) → ∃ m w₁, p.Yields W m w₁ ())
    (hapart : ∀ l, 0 < l → p.Deep d l → (p.run l).touches q = false)
    (hturns : p.step.control.turns.length ≤ p.control.turns.length) (hidle : w.current q = none) :
    ∃ m w₁, p.Yields W m w₁ () ∧ p.stepped q m = [] ∧
      Option.Rel Queue.Notified (w.queue? q) (w₁.queue? q) := by
  have hwithin := World.within_destroy (T := fun _ => True) (World.lasting_aside w fun _ => True)
    (World.Aside.refl w) task (fun _ _ => trivial) W
  rw [← hstep] at hwithin
  have hsame := hwithin.world.beside.queues q
  have hfirst := begun?_eq_none_of_length (q := q) hturns
  obtain hupon | ⟨w₁, he⟩ := w.destroy_cases task W
  · rw [← hstep] at hupon
    obtain ⟨m, w₁, hyields⟩ := hdestructor hupon
    obtain ⟨n, rfl⟩ := Nat.exists_eq_add_one.2 hyields.lasts
    have halive : ∀ j ≤ n, (p.run (j + 1)).control ≠ .aborted := fun j hj =>
      ne_aborted_of_depth (hyields.deep hd (Nat.le_refl _) (j + 1) (by omega) (Nat.succ_pos j))
    have hqueue : ∀ j ≤ n, Option.Rel Queue.Notified (w.queue? q) ((p.run (j + 1)).world.queue? q) := by
      intro j hj
      rw [run_succ]
      refine World.rel_trans (R := Queue.Notified) Queue.Notified.trans hsame
        (notified_elsewhere hwithin.stack.topped (fun l hl => ?_) (fun l hl => ?_) ?_).2
      · rw [← run_succ]
        exact hyields.inside (l + 1) (by omega) (Nat.succ_pos l)
      · rw [← run_succ]
        exact hapart (l + 1) (Nat.succ_pos l) (hyields.deep hd (by omega))
      · rw [← run_succ]
        exact halive j hj
    refine ⟨n + 1, w₁, hyields, stepped_eq_nil fun l hl => ?_, ?_⟩
    · cases l with
      | zero => exact hfirst
      | succ l =>
        refine (hp.run (l + 1)).begun?_eq_none_of_current ?_
        rw [← run_succ_step, World.current_of_notified (hqueue (l + 1) (by omega))]
        exact hidle
    · have hlast := hqueue n (Nat.le_refl n)
      rwa [hyields.returns] at hlast
  · rw [← hstep] at he
    rw [he] at hsame
    refine ⟨1, w₁, ⟨Nat.one_pos, fun l hl hpos => ?_, ?_⟩, ?_, hsame⟩
    · omega
    · rw [run_succ, run_zero, he]
    · exact stepped_eq_nil fun l hl => by
        rw [Nat.lt_one_iff.1 hl]
        exact hfirst

/-- A turn ends with a verdict, and the pass goes on with the task behind. -/
theorem Sound.turn_ends {d : Nat} (hp : (w.deliver (.cons (.turn q id walk) k) v).Sound)
    (hd : d < k.depth) (hQ : w.queue? q = some Q) (hc : Q.current = some id)
    (horder : Q.order = kept ++ id :: rest)
    (hdestructor : ∀ next walk',
      (w.deliver (.cons (.turn q id walk) k) v).step.control.Upon
        (.cons .unheeded (.cons (.walk q next walk') k)) →
      ∃ m w₁, (w.deliver (.cons (.turn q id walk) k) v).Yields (.cons (.walk q next walk') k) m w₁ ())
    (hapart : ∀ l, 0 < l → (w.deliver (.cons (.turn q id walk) k) v).Deep d l →
      ((w.deliver (.cons (.turn q id walk) k) v).run l).touches q = false) :
    ∃ m w₁ Q₁, (w.deliver (.cons (.turn q id walk) k) v).Yields
        (.cons (.walk q rest.head? (walk.after v)) k) m w₁ () ∧
      (w.deliver (.cons (.turn q id walk) k) v).stepped q m = [] ∧
      w₁.queue? q = some Q₁ ∧ Q.Keeps (World.leftBy kept id rest v) Q₁ := by
  have hwf : Q.WellFormed := hp.queues q Q hQ
  obtain ⟨task, hg⟩ := (hwf.order id).1 (by rw [horder]; simp)
  have hstep : (w.deliver (.cons (.turn q id walk) k) v).step = w.endTurn q id walk v k :=
    step_deliver ..
  have hturns : (w.deliver (.cons (.turn q id walk) k) v).step.control.turns.length ≤
      (w.deliver (.cons (.turn q id walk) k) v).control.turns.length := by
    rw [hstep, (World.piled_endTurn ..).turns]
    exact Nat.le_succ _
  cases v with
  | again =>
    have hend := hstep.trans (World.endTurn_again hQ hwf hc hg horder walk k)
    refine ⟨1, w.setQueue q Q.leave, Q.leave, ⟨Nat.one_pos, fun l hl hpos => by omega, ?_⟩,
      stepped_eq_nil fun l hl => ?_, World.queue?_setQueue_self hQ _,
      rfl, rfl, rfl, rfl, horder, fun _ _ => rfl⟩
    · rw [run_succ, run_zero, hend]
      rfl
    · rw [Nat.lt_one_iff.1 hl]
      exact begun?_eq_none_of_length hturns
  | done =>
    obtain ⟨Q₁, hkeeps, hend⟩ := World.endTurn_done hQ hwf hg horder walk k
    have hQ₁ := World.queue?_setQueue_self hQ Q₁
    obtain ⟨m, w₁, hyields, hquiet, hsame⟩ := hp.cleared (Nat.lt_succ_of_lt hd) (hstep.trans hend)
      (hdestructor _ _) hapart hturns ((World.current_eq hQ₁).trans hkeeps.idle)
    obtain ⟨Q₂, hQ₂, hnotified⟩ := World.queue?_of_rel_left hsame hQ₁
    exact ⟨m, w₁, Q₂, hyields, hquiet, hQ₂, hkeeps.notified hnotified⟩

/-- A timer that is due and does not repeat is done when its callback has returned. -/
theorem Strides.verdict_of_due {walk' : Walk} {t : TimerTask} (h : p.Strides q k (some id) walk)
    (hQ : p.world.queue? q = some Q) (ht : Q.get? id = some (.timer t)) (halive : t.alive = true)
    (honce : t.interval = none) (hdue : t.deadline ≤ p.world.now)
    (hyields : p.Yields (.cons (.turn q id walk') k) m w v)
    (hapart : ∀ l < m, 0 < l → (p.run l).touches q = false) : v = .done := by
  have htask : p.world.task? q id = some (.timer t) := World.task?_eq_some.2 ⟨Q, hQ, ht⟩
  obtain rfl := h.walk_eq htask hyields
  have hentered : (p.world.modifyQueue q (·.enter id)).queue? q = some (Q.enter id) := by
    rw [World.queue?_modifyQueue, hQ]
    rfl
  have hfires := World.within_stepTimer id hentered halive hdue
    (.cons (.turn q id { walk with visited := id :: walk.visited }) k)
  rw [show World.stepTimer _ q id t _ = p.step from (h.stepTask htask).symm] at hfires
  have hstack : p.step.control.Topped (·.queue ≠ q) _ := hfires.stack.topped
  obtain ⟨n, w₁, result, hn, hfired⟩ := hyields.inner (by decide) (fun _ _ => rfl) hstack.upon
  -- the callback has left the records as they were when the timer fired
  obtain ⟨l, rfl⟩ := Nat.exists_eq_add_one.2 hfired.lasts
  have hended := (run_succ l p).symm.trans hfired.returns
  have hsame := (notified_elsewhere (m := l) hstack
    (fun j hj => run_succ j p ▸ hfired.inside (j + 1) (by omega) (Nat.succ_pos j))
    (fun j hj => run_succ j p ▸ hapart (j + 1) (by omega) (Nat.succ_pos j))
    (by rw [hended]; exact Control.noConfusion)).2
  rw [hended] at hsame
  obtain ⟨_, hQ₁, _, rfl⟩ := World.queue?_of_rel_left hsame hfires.world
  have hlast : p.run (l + 2) =
      w₁.deliver (.cons (.turn q id { walk with visited := id :: walk.visited }) k) .done := by
    rw [run_succ_step, hfired.returns, World.deliver, step_deliver]
    refine World.timerFired_once hQ₁ (t := { t with fires := t.fires.tail }) ?_ honce _
    have hrecord : ((Q.enter id).modify id fun _ => .timer { t with fires := t.fires.tail }).get? id =
        some (.timer { t with fires := t.fires.tail }) := by
      rw [Queue.get?_modify, if_pos rfl, show (Q.enter id).get? id = _ from ht]
      rfl
    exact (Option.orElse_eq_some _ _ _).2 (.inl hrecord)
  exact (hyields.unique hn (Nat.succ_pos _) hlast).2.2.symm

end Turns

end Process

end TaskLoop
