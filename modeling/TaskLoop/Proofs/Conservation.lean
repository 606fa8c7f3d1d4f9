import Mathlib.Algebra.BigOperators.Group.Finset.Basic
import TaskLoop.Proofs.Departures
import TaskLoop.Proofs.ScriptLife
import TaskLoop.Proofs.Statistics

namespace TaskLoop

open scoped List

variable {a b c : Hole} {w w' : World} {q q' i j n : Nat} {id : TaskId} {Q : Queue} {p : Process}
  {walk : Walk}

/-- What there is to count for a queue: tasks completed, turns begun, what passes have returned, and
interrupts delivered. -/
@[ext] structure Books where
  completed : Nat
  begun : Nat
  returned : Nat
  delivered : Nat

namespace Books

instance : Add Books where
  add x y := ⟨x.completed + y.completed, x.begun + y.begun, x.returned + y.returned,
    x.delivered + y.delivered⟩

instance : Zero Books := ⟨⟨0, 0, 0, 0⟩⟩

instance : AddCommMonoid Books where
  nsmul := nsmulRec
  add_assoc _ _ _ := Books.ext (Nat.add_assoc ..) (Nat.add_assoc ..) (Nat.add_assoc ..)
    (Nat.add_assoc ..)
  zero_add _ := Books.ext (Nat.zero_add _) (Nat.zero_add _) (Nat.zero_add _) (Nat.zero_add _)
  add_zero _ := rfl
  add_comm _ _ := Books.ext (Nat.add_comm ..) (Nat.add_comm ..) (Nat.add_comm ..) (Nat.add_comm ..)

theorem add_eq (x y : Books) : x + y = ⟨x.completed + y.completed, x.begun + y.begun,
    x.returned + y.returned, x.delivered + y.delivered⟩ := rfl

theorem zero_eq : (0 : Books) = ⟨0, 0, 0, 0⟩ := rfl

end Books

namespace Activation

/-- What a pass of the queue has done so far. The turn that is in progress has begun. -/
def progress (q : Nat) : Activation a b → Books
  | .turn q' _ walk => if q' = q then ⟨walk.completed, walk.stepped + 1, 0, 0⟩ else 0
  | .walk q' _ walk => if q' = q then ⟨walk.completed, walk.stepped, 0, 0⟩ else 0
  | _ => 0

def walked? : Activation a b → Option Nat
  | .turn q _ _ | .walk q _ _ => some q
  | _ => none

def pass? : Activation a b → Option Nat
  | .turn q _ _ | .walk q _ _ | .drain q | .forever q => some q
  | _ => none

def finished? : (f : Activation a b) → a.Result → Option (Nat × TaskId)
  | .turn q id _, verdict => if verdict = .done then some (q, id) else none
  | _, _ => none

theorem progress_eq_zero {f : Activation a b} (h : f.walked? ≠ some q) : f.progress q = 0 := by
  cases f with
  | turn q' | walk q' => exact if_neg fun hq => h (congrArg some hq)
  | _ => rfl

theorem Plain.progress {f : Activation a b} (h : f.Plain) (q : Nat) : f.progress q = 0 := by
  cases f <;> trivial

theorem finished?_eq_none {f : Activation a b} (h : f.pass? = none) (result : a.Result) :
    f.finished? result = none := by
  cases f with
  | turn => cases h
  | _ => rfl

end Activation

namespace Pending

def progress (q : Nat) : {a : Hole} → Pending a → Books
  | _, .outermost => 0
  | _, .cons f k => f.progress q + k.progress q

def walked : {a : Hole} → Pending a → List Nat
  | _, .outermost => []
  | _, .cons f k => f.walked?.toList ++ k.walked

theorem progress_eq_zero {k : Pending a} (h : q ∉ k.walked) : k.progress q = 0 := by
  induction k with
  | outermost => rfl
  | cons f k ih =>
    rw [walked, List.mem_append, not_or] at h
    rw [progress, Activation.progress_eq_zero fun hf => h.1 (by simp [hf]), ih h.2, add_zero]

theorem progress_cons {f : Activation a b} (h : f.progress q = 0) (k : Pending b) :
    (cons f k).progress q = k.progress q := by rw [progress, h, zero_add]

theorem Over.progress {k : Pending c} {k' : Pending a} (h : k.Over k') (q : Nat) :
    k'.progress q = k.progress q := by
  induction h with
  | refl => rfl
  | cons plain _ ih => rw [progress_cons (plain.progress q), ih]

end Pending

namespace Control

def progress (q : Nat) : Control → Books
  | .perform _ k => k.progress q
  | .deliver _ k => k.progress q
  | .unwind _ k => k.progress q
  | _ => 0

def walked : Control → List Nat
  | .perform _ k => k.walked
  | .deliver _ k => k.walked
  | .unwind _ k => k.walked
  | _ => []

def broken? : Control → Option Nat
  | .unwind _ (.cons f _) => f.walked?
  | _ => none

def pass? : Control → Option Nat
  | .perform action _ => action.run?
  | .deliver _ (.cons f _) => f.pass?
  | _ => none

def finished? : Control → Option (Nat × TaskId)
  | .deliver result (.cons f _) => f.finished? result
  | _ => none

def returned? : Control → Option Nat
  | @deliver .pass result _ => some result
  | _ => none

variable {k : Pending c} {control : Control}

theorem Over.progress (h : control.Over k) (q : Nat) : control.progress q = k.progress q := by
  cases control with
  | perform | deliver | unwind => exact Pending.Over.progress h q
  | answered | escaped | aborted => exact h.elim

theorem progress_eq_zero (h : q ∉ control.walked) : control.progress q = 0 := by
  cases control with
  | perform | deliver | unwind => exact Pending.progress_eq_zero h
  | answered | escaped | aborted => rfl

theorem Over.returned? (h : control.Over k) (hc : c ≠ .pass) : control.returned? = none := by
  cases control with
  | @deliver hole result k' =>
    cases hole with
    | pass =>
      cases h with
      | refl => exact absurd rfl hc
      | @cons _ _ f _ plain => cases f <;> cases plain
    | _ => rfl
  | _ => rfl

theorem finished?_eq_none (h : control.pass? = none) : control.finished? = none := by
  cases control with
  | deliver result k =>
    cases k with
    | outermost => rfl
    | cons f k => exact Activation.finished?_eq_none h result
  | _ => rfl

end Control

def World.counted (w : World) (q : Nat) : Books :=
  ⟨(w.stats q).completed, (w.stats q).steps, (w.stats q).steps, (w.stats q).interrupts⟩

namespace Process

def removed? (p : Process) : Option (Nat × TaskId) :=
  match p.control.action? with
  | some (.queue q (.remove name)) => some (q, p.world.resolve name)
  | _ => none

def removals (p : Process) (q : Nat) : Nat :=
  (p.world.order q).countP fun id => p.removed? = some (q, id)

def completions (p : Process) (q : Nat) : Nat :=
  (p.world.order q).countP fun id => p.control.finished? = some (q, id)

def begins (p : Process) (q : Nat) : Nat := (p.begun? q).toList.length

def returned (p : Process) (q : Nat) : Nat :=
  if p.control.pass? = some q then p.step.control.returned?.getD 0 else 0

/-- Whether the next transition interrupts the task if it is queued: by an action, or by a watchdog
whose turn begins. -/
def reaches (p : Process) (q : Nat) (id : TaskId) : Bool :=
  p.control.action?.any (·.reaches p.world q id) ||
    (p.begun? q).any fun dog => decide (p.world.Bites q dog)

def deliveries (p : Process) (q : Nat) : Nat :=
  (p.world.order q).countP fun id => p.reaches q id && p.world.takes q id

def deeds (p : Process) (q : Nat) : Books :=
  ⟨p.completions q, p.begins q, p.returned q, p.deliveries q⟩

def books (p : Process) (q : Nat) : Books := p.world.counted q + p.control.progress q

/-- Aside from passes only interrupts are to be counted. -/
theorem deeds_of_pass? (hpass : p.control.pass? = none)
    (hturns : p.step.control.turns.length ≤ p.control.turns.length) (q : Nat) :
    p.deeds q = ⟨0, 0, 0, (p.world.order q).countP fun id =>
      p.control.action?.any (·.reaches p.world q id) && p.world.takes q id⟩ := by
  have hbegun : p.begun? q = none := begun?_eq_none_of_length hturns
  simp only [deeds, completions, begins, returned, deliveries, reaches, hpass, hbegun,
    Control.finished?_eq_none hpass]
  simp

theorem deeds_of_returned? (haction : p.control.action? = none)
    (hturns : p.step.control.turns.length ≤ p.control.turns.length)
    (hreturned : p.step.control.returned? = none) (q : Nat) :
    p.deeds q = ⟨p.completions q, 0, 0, 0⟩ := by
  have hbegun : p.begun? q = none := begun?_eq_none_of_length hturns
  simp [deeds, begins, returned, deliveries, reaches, haction, hbegun, hreturned]

structure Passing (q : Nat) (k : Pending a) (p : Process) : Prop where
  turns : p.control.turns = k.turns
  pass : p.control.pass? = some q
  finished : p.control.finished? = none
  silent : ∀ q id, p.control.action?.any (·.reaches p.world q id) = false

theorem Passing.await {f : Activation a b} {k : Pending b} (h : p.Passing q k) (hf : f.Awaits) :
    p.Passing q (.cons f k) :=
  ⟨by rw [h.turns, Pending.turns_cons hf.turn?], h.pass, h.finished, h.silent⟩

theorem Passing.deeds {k : Pending a} (h : p.Passing q' k) (q : Nat) :
    p.deeds q = ⟨0, p.begins q, if q' = q then p.step.control.returned?.getD 0 else 0,
      if (p.begun? q).any fun dog => decide (p.world.Bites q dog) then p.world.takers q else 0⟩ := by
  have hreturned : p.returned q = if q' = q then p.step.control.returned?.getD 0 else 0 := by
    simp [returned, h.pass]
  have hdelivered : p.deliveries q =
      if (p.begun? q).any fun dog => decide (p.world.Bites q dog) then p.world.takers q else 0 := by
    simp only [deliveries, reaches, h.silent, Bool.false_or]
    split
    · next hb => simp [hb, World.takers]
    · next hb => simp [hb]
  rw [Process.deeds, hreturned, hdelivered, completions, h.finished]
  simp

theorem counted_of_stats (h : w'.stats q = w.stats q) : w'.counted q = w.counted q := by
  rw [World.counted, h]
  rfl

theorem Stepping.progress {R : World → Prop} {kind : TaskKind} {k : Pending .verdict}
    (h : p.Stepping R q' id kind k) : p.control.progress q = k.progress q := by
  cases h with
  | verdict => rfl
  | @within _ f _ steps within =>
    have hf : f.progress q = 0 := by cases f <;> trivial
    rw [within.stack.progress, Pending.progress_cons hf]

theorem Stepping.returned? {R : World → Prop} {kind : TaskKind} {k : Pending .verdict}
    (h : p.Stepping R q' id kind k) : p.control.returned? = none := by
  cases h with
  | verdict => rfl
  | @within a f _ steps within =>
    refine within.stack.returned? ?_
    rintro rfl
    cases f

theorem counted_of_interrupted (h : w'.stats q = (w.stats q).interrupted n) :
    w'.counted q = w.counted q + ⟨0, 0, 0, n⟩ := by
  rw [World.counted, h]
  rfl

theorem Passing.finishPass {k : Pending .pass} (h : p.Passing q' k) (hQ : p.world.queue? q = some Q)
    (next : Option TaskId) (hp : p.step = p.world.finishPass q' walk k) :
    p.step.books q =
      p.world.counted q + (Pending.cons (.walk q' next walk) k).progress q + p.deeds q := by
  have hbegun : p.begun? q = none :=
    begun?_eq_none_of_length (by rw [hp, h.turns]; exact Nat.le_refl _)
  have hreturned : p.step.control.returned? = some walk.stepped := by rw [hp]; rfl
  rw [h.deeds, hreturned, begins, hbegun, Pending.progress, Activation.progress]
  have hbooks : p.step.books q = (p.world.modifyQueue q'
      (·.countPass walk.stepped walk.completed)).counted q + k.progress q := by rw [hp]; rfl
  rw [hbooks]
  by_cases hq : q' = q
  · subst hq
    rw [World.counted, World.counted, World.stats_modifyQueue_self hQ, World.stats_eq hQ]
    simp only [Books.add_eq, Queue.countPass, if_true]
    ext <;> simp <;> omega
  · have hstats : (p.world.modifyQueue q' (·.countPass walk.stepped walk.completed)).stats q =
        p.world.stats q := by
      rw [World.stats, World.queue?_modifyQueue_of_ne _ _ hq]
      rfl
    rw [counted_of_stats hstats, if_neg hq, if_neg hq]
    simp [Books.add_eq, Books.zero_eq]

theorem Passing.stepTask {k : Pending .pass} {task : Task} (h : p.Passing q' k)
    (next : Option TaskId) (queued : p.world.task? q' id = some task)
    (hp : p.step = (p.world.modifyQueue q' (·.enter id)).stepTask q' id task
      (.cons (.turn q' id { walk with visited := id :: walk.visited }) k)) :
    p.step.books q =
      p.world.counted q + (Pending.cons (.walk q' next walk) k).progress q + p.deeds q := by
  have hstepping := World.stepping_enter queued { walk with visited := id :: walk.visited } k
  have hstats := World.stats_turn queued
    (.cons (.turn q' id { walk with visited := id :: walk.visited }) k) q
  rw [← hp] at hstepping hstats
  have hturns : p.step.control.turns = (q', id) :: p.control.turns := by
    rw [hstepping.turns, h.turns]
    rfl
  have hbegun : p.begun? q = if q' = q then some id else none := by simp [begun?, hturns]
  rw [h.deeds, begins, hbegun, hstepping.returned?, books, hstepping.progress, World.counted, hstats,
    Pending.progress, Pending.progress, Activation.progress, Activation.progress, World.counted]
  by_cases hq : q' = q
  · subst hq
    by_cases hbites : p.world.Bites q' id
    · simp [hbites, Books.add_eq, Stats.interrupted]
      omega
    · simp [hbites, Books.add_eq, Stats.interrupted]
      omega
  · simp [hq, Books.add_eq, Books.zero_eq, Stats.interrupted]

theorem Passing.walkOn {k : Pending .pass} (h : p.Passing q' k) (hQ : p.world.queue? q = some Q)
    {next : Option TaskId} (hp : p.step = p.world.walkOn q' next walk k) :
    p.step.books q =
      p.world.counted q + (Pending.cons (.walk q' next walk) k).progress q + p.deeds q := by
  unfold World.walkOn at hp
  split at hp
  · exact h.finishPass hQ none hp
  · next id =>
    split at hp
    · exact h.finishPass hQ (some id) hp
    · next task queued => exact h.stepTask (some id) queued hp

theorem Passing.startPass {k : Pending .pass} (h : p.Passing q' k) (hQ : p.world.queue? q = some Q)
    (hp : p.step = p.world.startPass q' k) :
    p.step.books q = p.world.counted q + k.progress q + p.deeds q := by
  have hnone : p.step = p.world.deliver k 0 →
      p.step.books q = p.world.counted q + k.progress q + p.deeds q := fun hp => by
    have hbegun : p.begun? q = none :=
      begun?_eq_none_of_length (by rw [hp, h.turns]; exact Nat.le_refl _)
    have hreturned : p.step.control.returned? = some 0 := by rw [hp]; rfl
    rw [h.deeds, hreturned, begins, hbegun, hp]
    simp [books, World.deliver, Control.progress, Books.add_eq]
  unfold World.startPass at hp
  split at hp
  · exact hnone hp
  · split at hp
    · exact hnone hp
    · have hwalk := h.walkOn hQ hp
      have hfresh : ∀ next, (Activation.walk q' next {}).progress q = 0 := fun next => by
        simp [Activation.progress, Books.zero_eq]
      rwa [Pending.progress_cons (hfresh _)] at hwalk

theorem Passing.rests {k : Pending a} (h : p.Passing q' k) (ha : a ≠ .pass) {result : a.Result}
    (hp : p.step = w'.deliver k result) (hstats : w'.stats q = p.world.stats q) :
    p.step.books q = p.world.counted q + k.progress q + p.deeds q := by
  have hbegun : p.begun? q = none :=
    begun?_eq_none_of_length (by rw [hp, h.turns]; exact Nat.le_refl _)
  have hreturned : p.step.control.returned? = none := by
    rw [hp]
    cases a <;> first | rfl | exact absurd rfl ha
  rw [h.deeds, hreturned, begins, hbegun, hp]
  simp [books, World.deliver, Control.progress, Books.add_eq, counted_of_stats hstats]

theorem Passing.drainOn {k : Pending .run} (h : p.Passing q' k) (hQ : p.world.queue? q = some Q)
    (hp : p.step = p.world.drainOn q' k) :
    p.step.books q = p.world.counted q + k.progress q + p.deeds q := by
  have ha : Hole.run ≠ Hole.pass := fun h => by cases h
  unfold World.drainOn at hp
  split at hp
  · exact h.rests ha hp rfl
  · next Q' hQ' =>
    split at hp
    · refine h.rests ha hp (World.stats_setQueue hQ' ?_ q)
      rfl
    · split at hp
      · exact h.rests ha hp rfl
      · have hpass := (h.await (f := .drain q') trivial).startPass hQ hp
        rwa [Pending.progress_cons rfl] at hpass

theorem Passing.startRun {k : Pending .run} (h : p.Passing q' k) (hQ : p.world.queue? q = some Q)
    (hp : p.step = p.world.startRun q' k) :
    p.step.books q = p.world.counted q + k.progress q + p.deeds q := by
  unfold World.startRun at hp
  split at hp
  · exact h.rests (fun h => by cases h) hp rfl
  · exact h.drainOn hQ hp

/-- What goes on aside from passes and actions is not counted. -/
theorem books_over {k : Pending c} (hover : p.step.control.Over k) (hpass : p.control.pass? = none)
    (haction : p.control.action? = none) (hturns : k.turns.length ≤ p.control.turns.length)
    (hprogress : k.progress q = p.control.progress q)
    (hstats : p.step.world.stats q = p.world.stats q) : p.step.books q = p.books q + p.deeds q := by
  rw [deeds_of_pass? hpass (by rw [hover.turns]; exact hturns), haction, books, hover.progress,
    hprogress, counted_of_stats hstats, books]
  simp [Books.add_eq]

theorem books_perform {action : Action} {k : Pending .reply} (h : Sound ⟨w, .perform action k⟩)
    (hQ : w.queue? q = some Q) :
    (step ⟨w, .perform action k⟩).books q =
      books ⟨w, .perform action k⟩ q + deeds ⟨w, .perform action k⟩ q := by
  cases hrun : action.run? with
  | none =>
    have hwithin := w.within_perform hrun k
    have hover : (step ⟨w, .perform action k⟩).control.Over k := hwithin.stack
    have hstats : (step ⟨w, .perform action k⟩).world.stats q = _ :=
      World.stats_perform h.queues hrun k q
    have hpass : (Control.perform action k).pass? = none := hrun
    rw [deeds_of_pass? hpass (by rw [hover.turns]; exact Nat.le_refl _), books, hover.progress,
      counted_of_interrupted hstats, add_right_comm]
    rfl
  | some q' =>
    have hsilent : ∀ q id, action.reaches w q id = false := fun q id => by
      cases action with
      | queue q action => cases action <;> first | rfl | cases hrun
      | _ => rfl
    have hpassing : Passing q' k ⟨w, .perform action k⟩ := ⟨rfl, hrun, rfl, hsilent⟩
    cases action with
    | queue q₁ action =>
      have hstep : step ⟨w, .perform (.queue q₁ action) k⟩ = w.perform (.queue q₁ action) k := rfl
      simp only [World.perform] at hstep
      split at hstep
      · exact hpassing.rests (fun h => by cases h) hstep rfl
      · cases action with
        | runPass =>
          cases hrun
          have hpass := (hpassing.await (f := .passReply) trivial).startPass hQ hstep
          rwa [Pending.progress_cons rfl] at hpass
        | runOnce =>
          cases hrun
          have hpass := (hpassing.await (f := .runReply) trivial).startRun hQ hstep
          rwa [Pending.progress_cons rfl] at hpass
        | runForever =>
          cases hrun
          have hpass := (hpassing.await (f := .forever q') trivial).startRun hQ hstep
          rwa [Pending.progress_cons rfl] at hpass
        | _ => cases hrun
    | _ => cases hrun

/-- A turn that ends completes its task if the task is done and still queued. -/
theorem completions_turn (hw : w.WellFormed) (q' : Nat) (id : TaskId) (walk : Walk)
    (verdict : Verdict) (k : Pending .pass) : completions ⟨w, .deliver verdict (.cons (.turn q' id walk) k)⟩ q =
      if q' = q ∧ verdict = .done ∧ id ∈ w.order q then 1 else 0 := by
  have hcount := countP_of_nodup (World.nodup_order hw q) id fun _ => true
  simp only [Bool.and_true, and_true] at hcount
  simp only [completions, Control.finished?, Activation.finished?]
  by_cases hdone : verdict = .done
  · by_cases hq : q' = q
    · simp [hdone, hq, hcount]
    · simp [hdone, hq]
  · simp [hdone]

/-- A pass goes on after a turn. It counts the step, and the task if it has completed it. -/
theorem over_endTurn (hQ : w.queue? q = some Q) (hwf : Q.WellFormed) (id : TaskId) (walk : Walk)
    (verdict : Verdict) (k : Pending .pass) : ∃ next walk',
      (w.endTurn q id walk verdict k).control.Over (.cons (.walk q next walk') k) ∧
      walk'.stepped = walk.stepped + 1 ∧
      walk'.completed = walk.completed + (if verdict = .done ∧ id ∈ Q.order then 1 else 0) ∧
      ∀ q', (w.endTurn q id walk verdict k).world.stats q' = w.stats q' := by
  have hwithin : ∀ {w' : World} (task : Task) (next : Option TaskId) (walk' : Walk),
      (∀ q', w'.stats q' = w.stats q') →
      (w'.destroy task (.cons (.walk q next walk') k)).Within
        (fun w' => ∀ q', w'.stats q' = w.stats q') (.cons (.walk q next walk') k) :=
    fun task next walk' hstats => World.within_destroy (T := fun _ => True)
      (R := fun w' => ∀ q', w'.stats q' = w.stats q')
      (fun _ _ h haside q' => (haside.stats q').trans (h q')) hstats task (fun _ _ => trivial) _
  have hleave : ∀ q', (w.setQueue q Q.leave).stats q' = w.stats q' := fun q' => by
    refine World.stats_setQueue hQ ?_ q'
    rfl
  by_cases hcompletes : verdict = .done ∧ id ∈ Q.order
  · obtain ⟨rfl, hmem⟩ := hcompletes
    obtain ⟨task, hg⟩ := (hwf.order id).1 hmem
    obtain ⟨left, taken, heq⟩ := World.endTurn_completes hQ hg walk k
    have hstats : left.stats = Q.stats := by
      obtain ⟨_, _, rfl⟩ := Queue.unlink?_eq_some taken
      rfl
    have hdestroy := hwithin task (World.chooseNext Q id walk.visited)
      ⟨walk.visited, walk.stepped + 1, walk.completed + 1⟩ (World.stats_setQueue hQ hstats)
    rw [heq]
    exact ⟨_, _, hdestroy.stack, rfl, by simp [hmem], hdestroy.world⟩
  · have hgone : verdict = .done → Q.get? id = none := fun hdone => by
      refine Option.eq_none_iff_forall_ne_some.2 fun task hg => hcompletes ⟨hdone, ?_⟩
      exact (hwf.order id).2 ⟨task, hg⟩
    rw [if_neg hcompletes]
    cases hheld : Q.held with
    | none =>
      rw [World.endTurn_leaves hQ hgone hheld]
      exact ⟨_, _, .refl, rfl, rfl, hleave⟩
    | some task =>
      have hdestroy := hwithin task (World.chooseNext Q id walk.visited)
        ⟨walk.visited, walk.stepped + 1, walk.completed⟩ hleave
      rw [World.endTurn_destroys hQ hgone hheld]
      exact ⟨_, _, hdestroy.stack, rfl, rfl, hdestroy.world⟩

theorem books_turn {k : Pending .pass} {verdict : Verdict}
    (h : Sound ⟨w, .deliver verdict (.cons (.turn q' id walk) k)⟩) (hQ : w.queue? q = some Q) :
    (step ⟨w, .deliver verdict (.cons (.turn q' id walk) k)⟩).books q =
      books ⟨w, .deliver verdict (.cons (.turn q' id walk) k)⟩ q +
        deeds ⟨w, .deliver verdict (.cons (.turn q' id walk) k)⟩ q := by
  have hturn : (q', id) ∈ (Pending.cons (.turn q' id walk) k).turns := List.mem_cons_self ..
  obtain ⟨Q', hQ', _, _⟩ := h.ready.running hturn
  have hstep := step_deliver w verdict (.turn q' id walk) k
  obtain ⟨next, walk', hover, hstepped, hcompleted, hstats⟩ :=
    over_endTurn hQ' (h.queues q' Q' hQ') id walk verdict k
  rw [← show _ = w.endTurn q' id walk verdict k from hstep] at hover hstats
  rw [deeds_of_returned? rfl (by rw [hover.turns]; exact Nat.le_succ _)
    (hover.returned? fun h => by cases h), completions_turn h.queues, books, hover.progress,
    counted_of_stats (hstats q), books, Control.progress, Pending.progress, Pending.progress,
    Activation.progress, Activation.progress, hstepped, hcompleted, ← World.order_eq hQ']
  by_cases hq : q' = q
  · subst hq
    simp only [Books.add_eq, true_and, if_true]
    ext
    · simp
      omega
    · simp
    · simp
    · simp
  · simp only [hq, if_false, false_and]
    rfl

theorem books_deliver {f : Activation a b} {k : Pending b} {result : a.Result}
    (h : Sound ⟨w, .deliver result (.cons f k)⟩) (hQ : w.queue? q = some Q) :
    (step ⟨w, .deliver result (.cons f k)⟩).books q =
      books ⟨w, .deliver result (.cons f k)⟩ q + deeds ⟨w, .deliver result (.cons f k)⟩ q := by
  have hstep := step_deliver w result f k
  have hover : ∀ {c : Hole} {k' : Pending c}, (f.resume result w k).control.Over k' →
      f.pass? = none → k'.turns.length ≤ (Pending.cons f k).turns.length →
      k'.progress q = (Pending.cons f k).progress q →
      (f.resume result w k).world.stats q = w.stats q →
      (step ⟨w, .deliver result (.cons f k)⟩).books q =
        books ⟨w, .deliver result (.cons f k)⟩ q + deeds ⟨w, .deliver result (.cons f k)⟩ q :=
    fun hover hpass hturns hprogress hstats =>
      books_over (hstep ▸ hover) hpass rfl hturns hprogress (hstep ▸ hstats)
  have hR := World.lasting_stats q (w.stats q) fun _ => True
  have hplain : f.Plain → (step ⟨w, .deliver result (.cons f k)⟩).books q =
      books ⟨w, .deliver result (.cons f k)⟩ q + deeds ⟨w, .deliver result (.cons f k)⟩ q := by
    intro hf
    have hwithin := hf.within hR.robust rfl (fun _ _ => trivial) result k
    refine hover hwithin.stack ?_ ?_ (Pending.progress_cons (hf.progress q) k).symm hwithin.world
    · cases f <;> first | rfl | exact hf.elim
    · rw [Pending.turns_cons hf.turn?]
  cases f with
  | routine | unheeded | callReply | doneReply | machine | counted | host | pacer | triggered =>
    exact hplain trivial
  | idle | rested | passReply | runReply | cleanup =>
    exact hover .refl rfl (Nat.le_refl _) (Pending.progress_cons rfl k).symm rfl
  | firing q' id =>
    obtain ⟨w', verdict, hfired, _⟩ := w.timerFired_eq q' id k
    refine @hover _ k ?_ rfl (Nat.le_refl _) (Pending.progress_cons rfl k).symm
      (w.stats_timerFired q' id k q)
    rw [Activation.resume, hfired]
    exact .refl
  | quiet name onDrop =>
    have hwithin := World.within_destroyCallback hR rfl name onDrop (.cons .rested k)
    exact hover hwithin.stack rfl (Nat.le_refl _) rfl hwithin.world
  | script q' id t base =>
    exact @hover _ k .refl rfl (Nat.le_refl _) (Pending.progress_cons rfl k).symm
      (w.stats_scriptReturned q' id t base result k q)
  | turn q' id walk => exact books_turn h hQ
  | walk q' next walk =>
    have hwalk := Passing.walkOn (p := ⟨w, .deliver result (.cons (.walk q' next walk) k)⟩) (k := k)
      ⟨rfl, rfl, rfl, fun _ _ => rfl⟩ hQ hstep
    exact hwalk
  | drain q' =>
    have hdrain := Passing.drainOn (p := ⟨w, .deliver result (.cons (.drain q') k)⟩) (k := k)
      ⟨rfl, rfl, rfl, fun _ _ => rfl⟩ hQ hstep
    rwa [← Pending.progress_cons (f := .drain q') rfl] at hdrain
  | forever q' =>
    have hpassing : Passing q' k ⟨w, .deliver result (.cons (.forever q') k)⟩ :=
      ⟨rfl, rfl, rfl, fun _ _ => rfl⟩
    cases result with
    | stopped =>
      have hrests := hpassing.rests (q := q) (fun h => by cases h) hstep rfl
      rwa [← Pending.progress_cons (f := .forever q') rfl] at hrests
    | drained => exact (hpassing.await (f := .forever q') trivial).startRun hQ hstep
  | sweep rest =>
    cases rest with
    | nil => exact hover .refl rfl (Nat.le_refl _) (Pending.progress_cons rfl k).symm rfl
    | cons task rest =>
      have hwithin := World.within_destroy hR rfl task (fun _ _ => trivial) (.cons (.sweep rest) k)
      exact hover hwithin.stack rfl (Nat.le_refl _) rfl hwithin.world

theorem books_unwind {f : Activation a b} {k : Pending b} {payload : Payload}
    (h : Sound ⟨w, .unwind payload (.cons f k)⟩) (hbreaks : f.walked? ≠ some q)
    (hend : (f.unwind payload w k).control ≠ .aborted) :
    (step ⟨w, .unwind payload (.cons f k)⟩).books q =
      books ⟨w, .unwind payload (.cons f k)⟩ q + deeds ⟨w, .unwind payload (.cons f k)⟩ q := by
  have hstep := step_unwind w payload f k
  have hover : ∀ {c : Hole} {k' : Pending c}, (f.unwind payload w k).control.Over k' →
      k'.turns.length ≤ (Pending.cons f k).turns.length →
      k'.progress q = (Pending.cons f k).progress q →
      (f.unwind payload w k).world.stats q = w.stats q →
      (step ⟨w, .unwind payload (.cons f k)⟩).books q =
        books ⟨w, .unwind payload (.cons f k)⟩ q + deeds ⟨w, .unwind payload (.cons f k)⟩ q :=
    fun hover hturns hprogress hstats =>
      books_over (hstep ▸ hover) rfl rfl hturns hprogress (hstep ▸ hstats)
  have hR := World.lasting_stats q (w.stats q) fun _ => True
  cases f with
  | quiet name onDrop =>
    have hwithin :=
      World.within_destroyCallback hR rfl name onDrop (.cons (.cleanup payload .verdict) k)
    exact hover hwithin.stack (Nat.le_refl _) rfl hwithin.world
  | script q' id t base =>
    rw [Activation.unwind] at hover
    split at hover
    · exact @hover _ k .refl (Nat.le_refl _) (Pending.progress_cons rfl k).symm
        (w.stats_scriptReturned q' id t base (.ok ()) k q)
    · exact hover .refl (Nat.le_refl _) (Pending.progress_cons rfl k).symm rfl
  | turn q' id walk =>
    have hturn : (q', id) ∈ (Pending.cons (.turn q' id walk) k).turns := List.mem_cons_self ..
    obtain ⟨Q, hQ, _, _⟩ := h.ready.running hturn
    have hprogress := Pending.progress_cons (Activation.progress_eq_zero hbreaks) k
    have hleave : (w.setQueue q' Q.leave).stats q = w.stats q := by
      refine World.stats_setQueue hQ ?_ q
      rfl
    rw [Activation.unwind, World.abandonTurn, show w.queue? q' = some Q from hQ] at hover
    dsimp only at hover
    split at hover
    · exact hover .refl (Nat.le_succ _) hprogress.symm hleave
    · next task _ =>
      have hwithin := World.within_destroy hR hleave task (fun _ _ => trivial)
        (.cons (.cleanup payload .pass) k)
      exact hover hwithin.stack (Nat.le_succ _)
        ((Pending.progress_cons rfl k).trans hprogress.symm) hwithin.world
  | walk q' next walk =>
    exact hover .refl (Nat.le_refl _)
      (Pending.progress_cons (Activation.progress_eq_zero hbreaks) k).symm rfl
  | machine e call | counted e call op | host e call name turn =>
    have haside := World.aside_modifyMachine (T := fun _ => True)
      (f := ({ · with allocated := call.mark })) w e fun _ => rfl
    exact @hover _ k .refl (Nat.le_refl _) (Pending.progress_cons rfl k).symm (haside.stats q)
  | sweep rest =>
    refine hover .refl (Nat.le_refl _) ?_ rfl
    rw [Pending.progress_cons rfl, Pending.progress_cons rfl, Pending.progress_cons rfl]
  | cleanup => exact absurd rfl hend
  | _ => exact hover .refl (Nat.le_refl _) (Pending.progress_cons rfl k).symm rfl

/-- A transition adds to the books of a queue what it does, unless a payload leaves a pass of the
queue. -/
theorem Sound.books (h : p.Sound) (hQ : p.world.queue? q = some Q)
    (hbreaks : p.control.broken? ≠ some q) (hend : p.step.control ≠ .aborted) :
    p.step.books q = p.books q + p.deeds q := by
  obtain ⟨w, control⟩ := p
  have hidle : ∀ {p : Process}, p.control.pass? = none → p.control.action? = none →
      p.step.control.turns = [] → p.step.world = p.world → p.control.progress q = 0 →
      p.step.control.progress q = 0 → p.step.books q = p.books q + p.deeds q :=
    fun {p} hpass haction hturns hworld hbefore hafter => by
      rw [deeds_of_pass? hpass (by rw [hturns]; exact Nat.zero_le _), haction, Process.books,
        Process.books, hworld, hbefore, hafter]
      simp [Books.add_eq]
  cases control with
  | perform action k => exact books_perform h hQ
  | deliver result k =>
    cases k with
    | outermost => exact hidle rfl rfl rfl rfl rfl rfl
    | cons f k => exact books_deliver h hQ
  | unwind payload k =>
    cases k with
    | outermost => exact hidle rfl rfl rfl rfl rfl rfl
    | cons f k =>
      rw [step_unwind] at hend
      exact books_unwind h hbreaks hend
  | answered | escaped => exact hidle rfl rfl rfl rfl rfl rfl
  | aborted => exact absurd rfl hend

theorem removed?_eq_some : p.removed? = some (q, id) ↔
    ∃ name k, p.control = .perform (.queue q (.remove name)) k ∧ p.world.resolve name = id := by
  obtain ⟨w, control⟩ := p
  constructor
  · intro h
    unfold removed? at h
    split at h
    · next q' name haction =>
      cases control with
      | perform action k =>
        cases haction
        obtain ⟨rfl, hid⟩ := Prod.mk.inj (Option.some.inj h)
        exact ⟨name, k, rfl, hid⟩
      | _ => cases haction
    · cases h
  · rintro ⟨name, k, rfl, rfl⟩
    rfl

theorem finished?_eq_some : p.control.finished? = some (q, id) ↔ p.Completes q id := by
  obtain ⟨w, control⟩ := p
  constructor
  · intro h
    cases control with
    | deliver result k =>
      cases k with
      | outermost => cases h
      | cons f k =>
        cases f with
        | turn q' id' walk =>
          obtain ⟨hdone, h⟩ := Option.ite_none_right_eq_some.1 h
          cases hdone
          cases h
          exact ⟨walk, k, rfl⟩
        | _ => cases h
    | _ => cases h
  · rintro ⟨walk, k, hp⟩
    cases hp
    rfl

theorem Sound.mem_order_step (h : p.Sound) (hm : id ∈ p.world.order q) :
    id ∉ p.step.world.order q ↔ p.removed? = some (q, id) ∨ p.control.finished? = some (q, id) := by
  obtain ⟨task, ht⟩ := (World.mem_order h.queues).1 hm
  have hleaves : p.Leaves q id ↔ p.removed? = some (q, id) ∨ p.control.finished? = some (q, id) := by
    rw [Leaves, finished?_eq_some, removed?_eq_some]
    refine or_congr_left ⟨?_, ?_⟩
    · rintro ⟨_, k, hcontrol, _, name, rfl, hid⟩
      exact ⟨name, k, hcontrol, hid⟩
    · rintro ⟨name, k, hcontrol, hid⟩
      exact ⟨_, k, hcontrol, ⟨task, ht⟩, name, rfl, hid⟩
  rw [← hleaves, ← World.task?_eq_none_iff h.step.2.queues]
  exact ⟨h.leaves ht, h.task?_of_leaves⟩

theorem removals_add_completions (p : Process) (q : Nat) : p.removals q + p.completions q =
    (p.world.order q).countP fun id =>
      p.removed? = some (q, id) ∨ p.control.finished? = some (q, id) := by
  obtain ⟨w, control⟩ := p
  cases control with
  | perform => simp [removals, completions, Control.finished?]
  | _ => simp [removals, completions, removed?, Control.action?]

/-- A task that was queued or is pushed is queued then, or it is removed or completed. -/
theorem Sound.length_order (h : p.Sound) (q : Nat) :
    (p.step.world.order q).length + p.removals q + p.completions q =
      (p.world.order q).length + (p.pushed q).length := by
  have hnodup := World.nodup_order h.queues q
  have hnodup' := World.nodup_order h.step.2.queues q
  -- the tasks that stay are counted in the order before and in the order after
  have hstay : (p.step.world.order q).countP (· ∈ p.world.order q) =
      (p.world.order q).countP (· ∈ p.step.world.order q) := by
    rw [List.countP_eq_length_filter, List.countP_eq_length_filter]
    refine List.Perm.length_eq ((List.perm_ext_iff_of_nodup (hnodup'.filter _)
      (hnodup.filter _)).2 fun id => ?_)
    simp [and_comm]
  have hleft : (p.world.order q).countP (· ∉ p.step.world.order q) =
      p.removals q + p.completions q := by
    rw [removals_add_completions]
    refine List.countP_congr fun id hm => ?_
    simpa using h.mem_order_step hm
  have hnew : (p.step.world.order q).countP (· ∉ p.world.order q) = (p.pushed q).length :=
    List.countP_eq_length_filter
  have hbefore := List.length_eq_countP_add_countP (· ∈ p.step.world.order q) (l := p.world.order q)
  have hafter := List.length_eq_countP_add_countP (· ∈ p.world.order q) (l := p.step.world.order q)
  simp only [decide_eq_true_eq] at hbefore hafter
  omega

theorem progress_begin (w : World) (command : Command) (q : Nat) :
    (w.begin command).control.progress q = 0 :=
  World.begin_induction (motive := fun p => p.control.progress q = 0) (fun _ => rfl) rfl
    (fun _ _ _ => Pending.progress_eq_zero (by simp [Pending.walked, Activation.walked?])) command

theorem books_of_ended (hended : p.control.ended = true) : p.books q = p.world.counted q := by
  have hprogress : p.control.progress q = 0 := by
    cases hc : p.control with
    | answered | escaped => rfl
    | perform | deliver | unwind | aborted => rw [hc] at hended; cases hended
  rw [books, hprogress, add_zero]

end Process

namespace Course

variable {s : Course}

/-- Unless a payload has left a pass of the queue, its books hold what has been done for it. -/
theorem books_eq (hQ : (s i).world.queue? q = some Q)
    (hbreaks : ∀ j < i, (s j).control.broken? ≠ some q) (hend : (s i).control ≠ .aborted) :
    (s i).books q = ∑ j ∈ Finset.range i, (s j).deeds q := by
  induction i generalizing Q with
  | zero =>
    obtain ⟨start, queues, engines, h⟩ := s.starts
    change s 0 = _ at h
    rw [h] at hQ ⊢
    obtain ⟨config, rfl⟩ := World.queue?_make hQ
    rw [Finset.range_zero, Finset.sum_empty, Process.books, World.counted, World.stats_eq hQ]
    rfl
  | succ i ih =>
    obtain ⟨Q₀, hQ₀, _⟩ := moves (Nat.le_succ i) hQ
    have halive := alive_of_le hend (Nat.le_succ i)
    have hsum := ih hQ₀ (fun j hj => hbreaks j (Nat.lt_succ_of_lt hj)) halive
    have hbooks := fun h => (s.sound i).books hQ₀ (hbreaks i (Nat.lt_succ_self i)) h
    rw [Finset.sum_range_succ, ← hsum]
    obtain hstep | ⟨hended, command, hbegin⟩ := s.step_or_begin i
    · rw [hstep] at hend ⊢
      exact hbooks hend
    · rw [Process.step_of_ended hended] at hbooks
      rw [← hbooks halive, Process.books_of_ended hended, hbegin, Process.books,
        Process.progress_begin, add_zero, World.counted, World.counted]
      rw [hbegin] at hQ
      rw [World.stats_eq hQ, World.stats_eq (World.queue?_begin hQ)]

/-- A task that was pushed is queued, or it was removed or completed. -/
theorem length_pushes (hQ : (s i).world.queue? q = some Q) :
    (pushes s q i).length = Q.count + ∑ j ∈ Finset.range i, (s j).completions q +
      ∑ j ∈ Finset.range i, (s j).removals q := by
  induction i generalizing Q with
  | zero =>
    obtain ⟨start, queues, engines, h⟩ := s.starts
    change s 0 = _ at h
    rw [h] at hQ
    obtain ⟨config, rfl⟩ := World.queue?_make hQ
    rfl
  | succ i ih =>
    obtain ⟨Q₀, hQ₀, _⟩ := moves (Nat.le_succ i) hQ
    have hlength := (s.sound i).length_order q
    have hsum := ih hQ₀
    rw [Queue.count, ← World.order_eq hQ₀] at hsum
    rw [pushes_succ, List.length_append, Finset.sum_range_succ, Finset.sum_range_succ, Queue.count,
      ← World.order_eq hQ]
    have horder : (s (i + 1)).world.order q = (s i).step.world.order q := by
      obtain hstep | ⟨hended, command, hbegin⟩ := s.step_or_begin i
      · rw [hstep]
      · rw [hbegin] at hQ ⊢
        rw [Process.step_of_ended hended, World.order_eq hQ, World.order_eq (World.queue?_begin hQ)]
    rw [horder]
    omega

/-- In a session in which no payload leaves a pass of the queue, so in every one in which nothing
unwinds, and while no pass of the queue is in progress: a task that was ever pushed is queued, or it
was completed or removed; the steps are the turns that have begun, and the sum of what its passes
have returned; and the interrupts are those that were delivered to its idle tasks, timers and
scripts. -/
theorem statistics (s : Course) (hQ : (s i).world.queue? q = some Q)
    (hbreaks : ∀ j < i, (s j).control.broken? ≠ some q) (hend : (s i).control ≠ .aborted)
    (hidle : q ∉ (s i).control.walked) :
    (pushes s q i).length =
      Q.count + Q.stats.completed + ∑ j ∈ Finset.range i, (s j).removals q ∧
    Q.stats.steps = ∑ j ∈ Finset.range i, (s j).begins q ∧
    Q.stats.steps = ∑ j ∈ Finset.range i, (s j).returned q ∧
    Q.stats.interrupts = ∑ j ∈ Finset.range i, (s j).deliveries q := by
  have hbooks := books_eq hQ hbreaks hend
  rw [Process.books, Control.progress_eq_zero hidle, add_zero, World.counted, World.stats_eq hQ]
    at hbooks
  have hsum : ∀ f : Books → Nat, f 0 = 0 → (∀ x y, f (x + y) = f x + f y) →
      f (∑ j ∈ Finset.range i, (s j).deeds q) = ∑ j ∈ Finset.range i, f ((s j).deeds q) :=
    fun f hzero hadd => map_sum (⟨⟨f, hzero⟩, hadd⟩ : Books →+ Nat) _ _
  have hcompleted := (congrArg Books.completed hbooks).trans (hsum _ rfl fun _ _ => rfl)
  refine ⟨?_, (congrArg Books.begun hbooks).trans (hsum _ rfl fun _ _ => rfl),
    (congrArg Books.returned hbooks).trans (hsum _ rfl fun _ _ => rfl),
    (congrArg Books.delivered hbooks).trans (hsum _ rfl fun _ _ => rfl)⟩
  rw [length_pushes hQ]
  exact congrArg (Q.count + · + _) hcompleted.symm

/-- A task that removes itself and is done, one whose destruction starts a pass inside the pass, and
one that pushes a task into the slot that has become free. Then everything is interrupted. -/
def counting : Course :=
  .ofCommands [{}] []
    [.act (.queue 0 (.idle "A" [⟨[.queue 0 (.remove "A")], .done⟩] none)),
      .act (.queue 0 (.idle "B" [⟨[], .done⟩] (some [.queue 0 .runPass]))),
      .act (.queue 0 (.idle "C" [⟨[.queue 0 (.idle "D" [⟨[], .again⟩] none)], .again⟩, ⟨[], .again⟩]
        none)),
      .act (.queue 0 .runPass),
      .act (.queue 0 (.interruptAll "W" [] none)), .act (.queue 0 (.interrupt "W")),
      .act (.queue 0 .runOnce)]

theorem statistics_counting :
    (∀ j < 58, (counting j).control.broken? ≠ some 0) ∧
    (counting 23).control.walked = [0, 0] ∧ (counting 58).control.walked = [] ∧
    (counting 58).world.order 0 = [] ∧ (counting 58).world.stats 0 = ⟨3, 9, 4, 2⟩ ∧
    (pushes counting 0 58).length = 4 + ∑ j ∈ Finset.range 58, (counting j).removals 0 ∧
    ∑ j ∈ Finset.range 58, (counting j).begins 0 = 9 ∧
    ∑ j ∈ Finset.range 58, (counting j).returned 0 = 9 ∧
    ∑ j ∈ Finset.range 58, (counting j).deliveries 0 = 2 := by
  obtain ⟨Q, hQ⟩ : ∃ Q, (counting 58).world.queue? 0 = some Q :=
    Option.isSome_iff_exists.1 (by decide +kernel)
  have hbreaks : ∀ j < 58, (counting j).control.broken? ≠ some 0 := by decide +kernel
  have hidle : (counting 58).control.walked = [] := by decide +kernel
  have horder : (counting 58).world.order 0 = [] := by decide +kernel
  have hstats : (counting 58).world.stats 0 = ⟨3, 9, 4, 2⟩ := by decide +kernel
  have hend : (counting 58).control ≠ .aborted :=
    Control.ne_aborted_of_ended (by decide +kernel)
  obtain ⟨hpushes, hbegins, hreturned, hdeliveries⟩ :=
    counting.statistics hQ hbreaks hend (by rw [hidle]; exact List.not_mem_nil)
  rw [World.stats_eq hQ] at hstats
  rw [World.order_eq hQ] at horder
  rw [Queue.count, horder, hstats] at hpushes
  rw [hstats] at hbegins hreturned hdeliveries
  refine ⟨hbreaks, by decide +kernel, hidle, ?_, ?_, ?_, hbegins.symm, hreturned.symm,
    hdeliveries.symm⟩
  · rw [World.order_eq hQ, horder]
  · rw [World.stats_eq hQ, hstats]
  · rw [hpushes, List.length_nil, Nat.zero_add]

end Course

end TaskLoop
