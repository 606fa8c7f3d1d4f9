import TaskLoop.Proofs.Turnover
import TaskLoop.Proofs.Walk

namespace TaskLoop

open scoped List

variable {c : Hole} {w : World} {q i l n r : Nat} {id : TaskId} {p : Process} {k : Pending .pass}
  {G : Prop} {start ids done todo : List TaskId} {next : Option TaskId} {walk : Walk}

namespace Process

def begun? (p : Process) (q : Nat) : Option TaskId :=
  match p.step.control.turns with
  | [] => none
  | (q', id) :: rest => if q' = q ∧ rest = p.control.turns then some id else none

theorem begun?_eq_some : p.begun? q = some id ↔ p.Begins q id := by
  rw [begun?, Begins]
  cases p.step.control.turns with
  | nil => simp
  | cons turn rest =>
    obtain ⟨q', id'⟩ := turn
    simp only [Option.ite_none_right_eq_some, Option.some.injEq, List.cons.injEq, Prod.mk.injEq]
    exact and_right_comm

theorem begun?_eq_none_of_length (h : p.step.control.turns.length ≤ p.control.turns.length) :
    p.begun? q = none := by
  refine Option.eq_none_iff_forall_ne_some.2 fun id hbegun => ?_
  rw [begun?_eq_some.1 hbegun, List.length_cons] at h
  exact absurd h (Nat.not_succ_le_self _)

theorem Sound.begun?_eq_none_of_running (h : p.Sound) (hrunning : p.world.Running q id) :
    p.begun? q = none := by
  refine Option.eq_none_iff_forall_ne_some.2 fun id' hbegun => ?_
  obtain ⟨Q, hQ, hc, _⟩ := hrunning
  cases (h.current_of_begins (begun?_eq_some.1 hbegun) hQ).symm.trans hc

theorem Sound.begun?_eq_none_of_current (h : p.Sound) (hc : p.step.world.current q = none) :
    p.begun? q = none := by
  refine Option.eq_none_iff_forall_ne_some.2 fun id hbegun => ?_
  have hturn : (q, id) ∈ p.step.control.turns := by
    rw [begun?_eq_some.1 hbegun]
    exact List.mem_cons_self ..
  obtain ⟨Q, hQ, hc', _⟩ := h.step.2.ready.running hturn
  cases ((World.current_eq hQ).trans hc').symm.trans hc

def stepped (p : Process) (q n : Nat) : List TaskId :=
  (List.range n).filterMap fun l => (p.run l).begun? q

theorem stepped_succ (p : Process) (q n : Nat) :
    p.stepped q (n + 1) = p.stepped q n ++ ((p.run n).begun? q).toList := by
  rw [stepped, List.range_succ, List.filterMap_append]
  cases h : (p.run n).begun? q <;> simp [stepped, h]

theorem mem_stepped : id ∈ p.stepped q n ↔ ∃ l < n, (p.run l).Begins q id := by
  simp [stepped, begun?_eq_some]

theorem mem_stepped_of_turn (hm : (q, id) ∈ (p.run n).control.turns) :
    (q, id) ∈ p.control.turns ∨ id ∈ p.stepped q n := by
  induction n with
  | zero => exact .inl hm
  | succ n ih =>
    rw [run_succ_step] at hm
    rw [stepped_succ]
    obtain hm | hbegins := mem_turns_step hm
    · exact (ih hm).imp_right (List.mem_append_left _)
    · exact .inr (List.mem_append_right _ (by simp [begun?_eq_some.2 hbegins]))

/-- The next transition starts a pass of a queue of which no task is running, with this stack to wait
for its result; the pass returns after that many transitions. -/
structure Passes (q : Nat) (k : Pending .pass) (n : Nat) (w : World) (r : Nat) (p : Process) :
    Prop where
  starts : p.step = p.world.startPass q k
  turns : p.control.turns = k.turns
  idle : ∃ Q, p.world.queue? q = some Q ∧ Q.current = none
  lasts : 0 < n
  inside : ∀ l < n, 0 < l → k.depth < (p.run l).control.depth
  returns : p.run n = w.deliver k r

theorem passes_runPass {k : Pending .reply} (hcontrol : p.control = .perform (.queue q .runPass) k)
    (hidle : (p.world.queue? q).map (·.current) = some none) (hlasts : 0 < n)
    (hinside : ∀ l < n, 0 < l → k.depth + 1 < (p.run l).control.depth)
    (hreturns : (p.run n).control = .deliver (r : Hole.pass.Result) (.cons .passReply k)) :
    p.Passes q (.cons .passReply k) n (p.run n).world r := by
  obtain ⟨Q, hQ, hc⟩ := Option.map_eq_some_iff.1 hidle
  refine ⟨?_, ?_, ⟨Q, hQ, hc⟩, hlasts, hinside, eq_deliver hreturns⟩
  · rw [step, hcontrol]
    simp only [World.perform, hQ, World.performOnQueue]
  · rw [hcontrol]
    rfl

def Serves (k : Pending c) (p : Process) : Prop :=
  k.depth < p.control.depth ∨ ∃ (w : World) (result : c.Result), p = w.deliver k result

theorem Serves.not_aborted {k : Pending c} (h : p.Serves k) : p.control ≠ .aborted := fun ha => by
  obtain hdepth | ⟨w, result, rfl⟩ := h
  · rw [ha] at hdepth
    cases hdepth
  · cases ha

theorem Serves.ne_unwind {k : Pending c} {payload : Payload} (h : p.Serves k) :
    p ≠ w.unwind payload k := fun he => by
  obtain hdepth | ⟨w', result, rfl⟩ := h
  · rw [he] at hdepth
    exact absurd hdepth (Nat.lt_irrefl _)
  · cases he

/-- No result comes out of a destruction while a payload is on its way out. -/
theorem cleanup_step {k : Pending c} {payload : Payload}
    (hupon : p.control.Upon (.cons (.cleanup payload c) k)) (hserves : p.step.Serves k) :
    p.step.control.Upon (.cons (.cleanup payload c) k) := by
  cases Process.holds hupon (by decide) with
  | above _ stays => exact stays.resolve_right hserves.not_aborted
  | result w result =>
    rw [World.deliver, step_deliver] at hserves
    exact absurd rfl hserves.ne_unwind
  | payload w payload' =>
    rw [World.unwind, step_unwind] at hserves
    exact absurd rfl hserves.not_aborted

theorem Passes.serves (h : p.Passes q k n w r) (hl : l < n) : (p.run l).step.Serves k := by
  rw [← run_succ_step]
  obtain rfl | hlt := Nat.eq_or_lt_of_le hl
  · exact .inr ⟨w, r, h.returns⟩
  · exact .inl (h.inside _ hlt (Nat.succ_pos l))

/-- No payload leaves a turn of a pass that returns. -/
theorem Passes.not_upon_cleanup {payload : Payload} (h : p.Passes q k n w r) (hl : l ≤ n) :
    ¬ (p.run l).control.Upon (.cons (.cleanup payload .pass) k) := by
  intro hupon
  -- the destruction stays on the stack up to the return, when nothing is left there
  have hlast : ∀ m, l + m ≤ n → (p.run (l + m)).control.Upon (.cons (.cleanup payload .pass) k) := by
    intro m hm
    induction m with
    | zero => exact hupon
    | succ m ih =>
      rw [← Nat.add_assoc, run_succ_step]
      exact cleanup_step (ih (Nat.le_of_succ_le hm)) (h.serves hm)
  have hreturned := hlast (n - l) (by omega)
  rw [Nat.add_sub_cancel' hl, h.returns] at hreturned
  exact absurd hreturned.depth_le (Nat.not_succ_le_self _)

theorem Passes.not_ended (h : p.Passes q k n w r) (hl : l < n) : (p.run l).control.ended = false := by
  cases hended : (p.run l).control.ended with
  | false => rfl
  | true =>
    have hstays : ∀ m, p.run (l + m) = p.run l := fun m => by
      induction m with
      | zero => rfl
      | succ m ih => rw [← Nat.add_assoc, run_succ_step, ih, step_of_ended hended]
    have hreturns := hstays (n - l)
    rw [Nat.add_sub_cancel' (Nat.le_of_lt hl), h.returns] at hreturns
    rw [← hreturns] at hended
    cases hended

end Process

theorem World.abandonTurn_eq (w : World) (q : Nat) (payload : Payload) (k : Pending .pass) :
    (∃ w' : World, w.abandonTurn q payload k = w'.unwind payload k) ∨
      (w.abandonTurn q payload k).control.Upon (.cons (.cleanup payload .pass) k) := by
  unfold abandonTurn
  split
  · exact .inl ⟨_, rfl⟩
  · dsimp only
    split
    · exact .inl ⟨_, rfl⟩
    · exact .inr over_destroy.upon

/-- How a pass is to go on that has visited some tasks: with the first task ahead, if there is one to
go on with. If the queue is left alone between turns, that is the first queued task that the pass has
not visited. -/
structure World.Chosen (w : World) (q : Nat) (start : List TaskId) (G : Prop)
    (ids done todo : List TaskId) (next : Option TaskId) : Prop where
  ahead : ∀ id, next = some id → todo.head? = some id
  ends : next = none → start ⊆ done
  gentle : G → next = (w.order q).find? (· ∉ ids)

namespace Process

/-- The stages of a pass on top of a stack: its start, the turn of the task visited last, and the time
between two turns, when records are destroyed. -/
inductive Stage (q : Nat) (k : Pending .pass) (start : List TaskId) (G : Prop)
    (ids done todo : List TaskId) (p : Process) : Prop
  | start (steps : p.step = p.world.walkOn q (p.world.order q).head? {} k)
      (turns : p.control.turns = k.turns) (visited : ids = [])
      (chosen : p.world.Chosen q start G ids done todo (p.world.order q).head?)
  | turn {id : TaskId} {walk : Walk} {past before : List TaskId}
      (stack : p.control.Upon (.cons (.turn q id walk) k)) (visited : walk.visited = ids.reverse)
      (stepped : walk.stepped = past.length) (last : ids = past ++ [id]) (mark : done = before ++ [id])
  | clearing {next : Option TaskId} {walk : Walk}
      (stack : p.control.Upon (.cons (.walk q next walk) k)) (visited : walk.visited = ids.reverse)
      (stepped : walk.stepped = ids.length) (chosen : p.world.Chosen q start G ids done todo next)
      (rests : G → p.world.current q = none)

structure Walks (q : Nat) (k : Pending .pass) (start : List TaskId) (G : Prop)
    (ids done todo : List TaskId) (p : Process) : Prop where
  passed : p.world.Passed q ids done todo
  stage : p.Stage q k start G ids done todo

/-- What the next transition means for a pass. It goes on, or the next turn begins, or the pass
returns because there is no task to go on with, or because that task is gone. -/
inductive Goes (q : Nat) (k : Pending .pass) (start : List TaskId) (G : Prop)
    (ids done todo : List TaskId) (p : Process) : Prop
  | on {gone rest : List TaskId} (split : todo = gone ++ rest)
      (above : k.depth < p.step.control.depth)
      (walks : p.step.Walks q k start G ids (done ++ gone) (rest ++ p.pushed q))
      (quiet : G → p.begun? q = none)
  | begins {id : TaskId} {rest : List TaskId} {walk : Walk} (split : todo = id :: rest)
      (walks : p.step.Walks q k start G (ids ++ [id]) (done ++ [id]) (rest ++ p.pushed q))
      (begins : p.Begins q id) (stack : p.step.control.Upon (.cons (.turn q id walk) k))
  | returns {next : Option TaskId} {walk : Walk} (steps : p.step = p.world.finishPass q walk k)
      (quiet : p.begun? q = none) (stepped : walk.stepped = ids.length)
      (chosen : p.world.Chosen q start G ids done todo next)
      (gone : ∀ id, next = some id → id ∉ p.world.order q ∧
        p = p.world.deliver (.cons (.walk q (some id) walk) k) ())

/-- Between two turns of a pass, what runs on top of it leaves the queue as it is. -/
def Gentle (q : Nat) (k : Pending .pass) (p : Process) : Prop :=
  k.depth + 1 < p.control.depth → p.world.current q = none →
    p.step.world.order q = p.world.order q ∧ p.step.world.current q = none

theorem Goes.same {f : Activation c .pass} (hupon : p.step.control.Upon (.cons f k))
    (hpassed : p.step.world.Passed q ids done (todo ++ p.pushed q))
    (hstage : p.step.Stage q k start G ids done (todo ++ p.pushed q))
    (hquiet : G → p.begun? q = none) : p.Goes q k start G ids done todo := by
  have hsplit : todo = [] ++ todo := rfl
  refine .on hsplit hupon.depth_le ⟨?_, ?_⟩ hquiet
  · rwa [List.append_nil]
  · rwa [List.append_nil]

theorem begins_walkOn {task : Task} (hstep : p.step = p.world.walkOn q (some id) walk k)
    (hturns : p.control.turns = k.turns) (ht : p.world.task? q id = some task) : p.Begins q id := by
  rw [Begins, hstep, hturns]
  exact (World.upon_walkOn ht walk k).1.turns

theorem Sound.goes_walkOn (h : p.Sound) (hstep : p.step = p.world.walkOn q next walk k)
    (hturns : p.control.turns = k.turns) (hpassed : p.world.Passed q ids done todo)
    (hvisited : walk.visited = ids.reverse) (hstepped : walk.stepped = ids.length)
    (hchosen : p.world.Chosen q start G ids done todo next)
    (hnext : ∀ id, next = some id → id ∈ p.world.order q ∨
      p = p.world.deliver (.cons (.walk q (some id) walk) k) ()) : p.Goes q k start G ids done todo := by
  have hreturns : p.step = p.world.finishPass q walk k →
      (∀ id, next = some id → id ∉ p.world.order q) → p.Goes q k start G ids done todo := by
    intro hend hgone
    refine .returns hend (begun?_eq_none_of_length ?_) hstepped hchosen fun id hid =>
      ⟨hgone id hid, (hnext id hid).resolve_left (hgone id hid)⟩
    rw [hend, hturns]
    exact Nat.le_refl _
  cases next with
  | none => exact hreturns hstep fun _ h => by cases h
  | some id =>
    cases ht : p.world.task? q id with
    | none =>
      rw [World.walkOn, show p.world.queue? q >>= (·.get? id) = none from ht] at hstep
      refine hreturns hstep fun id' hid' => ?_
      cases hid'
      exact (World.task?_eq_none_iff h.queues).1 ht
    | some task =>
      obtain ⟨rest, rfl⟩ := List.head?_eq_some_iff.1 (hchosen.ahead id rfl)
      have hupon := (World.upon_walkOn ht walk k).2
      rw [← hstep] at hupon
      exact .begins rfl ⟨h.passed_step hpassed.visit, .turn hupon (by simp [hvisited]) hstepped rfl rfl⟩
        (begins_walkOn hstep hturns ht) hupon

/-- The turn of a task ends: the next one is chosen, and then records are destroyed. -/
theorem Sound.goes_endTurn {verdict : Verdict} {past before : List TaskId} {id : TaskId}
    (h : (w.deliver (.cons (.turn q id walk) k) verdict).Sound)
    (hpassed : w.Passed q (past ++ [id]) (before ++ [id]) todo)
    (hvisited : walk.visited = (past ++ [id]).reverse) (hstepped : walk.stepped = past.length)
    (hstart : start ⊆ before ++ [id] ++ todo) :
    (w.deliver (.cons (.turn q id walk) k) verdict).Goes q k start G (past ++ [id]) (before ++ [id])
      todo := by
  obtain ⟨Q, hQ, _⟩ : w.Running q id := h.ready.running (List.mem_cons_self ..)
  obtain ⟨completed, left, horder, hcurrent, hwithin⟩ :=
    World.clears_endTurn hQ id walk verdict k
  obtain ⟨gone, rest, rfl, hpassed', hhead⟩ := hpassed.advance
  have hchoose : World.chooseNext Q id walk.visited = rest.head? := by
    rw [hvisited, hpassed.chooseNext_eq h.queues hQ, hhead]
  have hstep : (w.deliver (.cons (.turn q id walk) k) verdict).step = w.endTurn q id walk verdict k :=
    step_deliver ..
  have hworld : (w.endTurn q id walk verdict k).world.order q = left.order :=
    World.order_eq hwithin.world
  have hupon := hstep ▸ hwithin.stack.upon
  refine .on rfl hupon.depth_le ⟨h.passed_step hpassed', .clearing hupon hvisited (by simp [hstepped])
    ⟨fun id' hid' => ?_, fun hnone => ?_, fun _ => ?_⟩ fun _ => ?_⟩
    fun _ => begun?_eq_none_of_length ?_
  · rw [hchoose] at hid'
    simp [List.head?_append, hid']
  · rw [hchoose, List.head?_eq_none_iff] at hnone
    rwa [hnone, List.append_nil] at hstart
  · -- the task whose turn ends was visited, so it makes no difference that it has left
    rw [hchoose, hhead, hstep, hworld, World.order_eq hQ]
    obtain he | he := horder
    · rw [he]
    · rw [he, List.find?_filter]
      congr 1
      funext id'
      by_cases hid : id' = id <;> simp [hid]
  · rw [hstep, World.current_eq hwithin.world, hcurrent]
  · rw [hstep, (World.piled_endTurn ..).turns]
    exact Nat.le_succ _

theorem Sound.goes (h : p.Sound) (hw : p.Walks q k start G ids done todo)
    (hserves : p.step.Serves k)
    (hreturns : ∀ payload, ¬ p.step.control.Upon (.cons (.cleanup payload .pass) k))
    (hstart : start ⊆ done ++ todo) (hgentle : G → p.Gentle q k) :
    p.Goes q k start G ids done todo := by
  obtain ⟨hpassed, hstage⟩ := hw
  have hpassed' := h.passed_step hpassed
  cases hstage with
  | start steps turns visited chosen =>
    exact h.goes_walkOn steps turns hpassed (by rw [visited]; rfl) (by rw [visited]; rfl) chosen
      fun id hid => .inl (List.mem_of_head? hid)
  | @turn id walk past before stack visited stepped last mark =>
    have hturn : (q, id) ∈ p.control.turns := stack.turns.subset (List.mem_cons_self ..)
    have hquiet := h.begun?_eq_none_of_running (h.ready.running hturn)
    cases Process.holds stack (by decide) with
    | above _ stays =>
      have hupon := stays.resolve_right hserves.not_aborted
      exact .same hupon hpassed' (.turn hupon visited stepped last mark) fun _ => hquiet
    | result w verdict =>
      subst last mark
      exact h.goes_endTurn hpassed visited stepped hstart
    | payload w payload =>
      -- the payload goes on its way, at once or after a record is destroyed, and no result comes of it
      rw [World.unwind, step_unwind] at hserves hreturns
      obtain ⟨w', he⟩ | hupon := w.abandonTurn_eq q payload k
      · exact absurd he hserves.ne_unwind
      · exact absurd hupon (hreturns payload)
  | @clearing next walk stack visited stepped chosen rests =>
    cases Process.holds stack (by decide) with
    | above deeper stays =>
      -- what a destructor does to the queue is the only thing that could make the choice an old one
      have hupon := stays.resolve_right hserves.not_aborted
      have hsame := fun hG => hgentle hG deeper (rests hG)
      refine .same hupon hpassed' (.clearing hupon visited stepped
        ⟨fun id hid => ?_, chosen.ends, fun hG => ?_⟩ fun hG => (hsame hG).2)
        fun hG => h.begun?_eq_none_of_current (hsame hG).2
      · simp [List.head?_append, chosen.ahead id hid]
      · rw [(hsame hG).1]
        exact chosen.gentle hG
    | result w _ =>
      exact h.goes_walkOn (step_deliver ..) rfl hpassed visited stepped chosen
        fun id hid => .inr (by rw [hid]; rfl)
    | payload w payload =>
      rw [World.unwind, step_unwind] at hserves
      exact absurd rfl hserves.ne_unwind

def HasTurn (q : Nat) (k : Pending .pass) (n : Nat) (p : Process) (id : TaskId) : Prop :=
  ∃ l < n, (p.run l).Begins q id ∧
    ∃ walk, (p.run (l + 1)).control.Upon (.cons (.turn q id walk) k)

def Stands (q : Nat) (k : Pending .pass) (G : Prop) (l : Nat) (p : Process) : Prop :=
  ∃ ids done todo, done ++ todo = p.world.order q ++ pushes (p.run ·) q l ∧
    (p.run l).Walks q k (p.world.order q) G ids done todo ∧ (G → ids = p.stepped q l) ∧
    ∀ id ∈ ids, p.HasTurn q k l id

theorem HasTurn.mono {m : Nat} (h : p.HasTurn q k l id) (hlm : l ≤ m) : p.HasTurn q k m id := by
  obtain ⟨j, hj, hturn⟩ := h
  exact ⟨j, Nat.lt_of_lt_of_le hj hlm, hturn⟩

theorem Goes.stands (h : (p.run l).Goes q k (p.world.order q) G ids done todo)
    (hrow : done ++ todo = p.world.order q ++ pushes (p.run ·) q l) (hids : G → ids = p.stepped q l)
    (hturns : ∀ id ∈ ids, p.HasTurn q k l id) (hdepth : k.depth < (p.run (l + 1)).control.depth) :
    p.Stands q k G (l + 1) := by
  have hturns' : ∀ id ∈ ids, p.HasTurn q k (l + 1) id := fun id hm =>
    (hturns id hm).mono (Nat.le_succ l)
  have hrow' : done ++ todo ++ (p.run l).pushed q =
      p.world.order q ++ pushes (p.run ·) q (l + 1) := by
    rw [hrow, pushes_succ, List.append_assoc]
  cases h with
  | @on gone rest split above walks quiet =>
    rw [← run_succ_step] at walks
    refine ⟨_, _, _, ?_, walks, fun hG => ?_, hturns'⟩
    · rw [← hrow', split]
      simp
    · rw [stepped_succ, quiet hG, hids hG]
      simp
  | @begins id rest walk split walks begins stack =>
    rw [← run_succ_step] at walks stack
    refine ⟨_, _, _, ?_, walks, fun hG => ?_, fun id' hm => ?_⟩
    · rw [← hrow', split]
      simp
    · rw [stepped_succ, begun?_eq_some.2 begins, hids hG]
      rfl
    · obtain hm | hm := List.mem_append.1 hm
      · exact hturns' id' hm
      · rw [List.mem_singleton.1 hm]
        exact ⟨l, Nat.lt_succ_self l, begins, walk, stack⟩
  | returns steps =>
    rw [run_succ_step, steps] at hdepth
    exact absurd hdepth (Nat.lt_irrefl _)

namespace Passes

theorem stands_zero (h : p.Passes q k n w r) (hp : p.Sound) : p.Stands q k G 0 := by
  obtain ⟨Q, hQ, hidle⟩ := h.idle
  refine ⟨[], [], p.world.order q, by simp [pushes], ⟨World.passed_nil hp.queues q,
    .start ?_ h.turns rfl ⟨fun _ hid => hid, fun hnone => ?_, fun _ => ?_⟩⟩, fun _ => rfl, nofun⟩
  · rw [run_zero, h.starts, World.startPass, hQ, World.order_eq hQ]
    simp only [hidle, Option.isSome_none, Bool.false_eq_true, ↓reduceIte]
  · exact List.head?_eq_none_iff.1 hnone ▸ List.Subset.refl _
  · rw [run_zero]
    cases p.world.order q <;> simp

variable (h : p.Passes q k n w r) (hp : p.Sound) (hgentle : G → ∀ l < n, (p.run l).Gentle q k)

include h hp hgentle

theorem goes (hl : l < n) (hrow : done ++ todo = p.world.order q ++ pushes (p.run ·) q l)
    (hw : (p.run l).Walks q k (p.world.order q) G ids done todo) :
    (p.run l).Goes q k (p.world.order q) G ids done todo := by
  refine (hp.run l).goes hw (h.serves hl) (fun payload => ?_)
    (hrow ▸ List.subset_append_left ..) fun hG => hgentle hG l hl
  rw [← run_succ_step]
  exact h.not_upon_cleanup hl

theorem stands (hl : l < n) : p.Stands q k G l := by
  induction l with
  | zero => exact h.stands_zero hp
  | succ l ih =>
    have hl' := Nat.lt_of_succ_lt hl
    obtain ⟨ids, done, todo, hrow, hwalks, hids, hturns⟩ := ih hl'
    exact (h.goes hp hgentle hl' hrow hwalks).stands hrow hids hturns
      (h.inside _ hl (Nat.succ_pos l))

/-- The last transition of a pass: there is nothing to go on with, or it is gone. -/
theorem last : ∃ ids done todo next walk m, n = m + 1 ∧
    done ++ todo = p.world.order q ++ pushes (p.run ·) q m ∧
    (p.run m).world.Passed q ids done todo ∧
    (p.run m).world.Chosen q (p.world.order q) G ids done todo next ∧
    (∀ id, next = some id → id ∉ w.order q ∧
      p.run m = (p.run m).world.deliver (.cons (.walk q (some id) walk) k) ()) ∧
    w.order q = (p.run m).world.order q ∧ r = ids.length ∧ (G → ids = p.stepped q n) ∧
    ∀ id ∈ ids, p.HasTurn q k n id := by
  obtain ⟨m, rfl⟩ := Nat.exists_eq_add_one.2 h.lasts
  obtain ⟨ids, done, todo, hrow, hwalks, hids, hturns⟩ := h.stands hp hgentle (Nat.lt_succ_self m)
  have hstep : (p.run m).step = w.deliver k r := by rw [← run_succ_step, h.returns]
  cases h.goes hp hgentle (Nat.lt_succ_self m) hrow hwalks with
  | on _ above =>
    rw [hstep] at above
    exact absurd above (Nat.lt_irrefl _)
  | begins _ _ _ stack =>
    rw [hstep] at stack
    exact absurd stack.depth_le (Nat.not_succ_le_self _)
  | @returns next walk steps quiet stepped chosen gone =>
    have hends := hstep.symm.trans steps
    have hworld : w.order q = (p.run m).world.order q := by
      rw [show w = _ from congrArg Process.world hends]
      exact World.order_modifyQueue fun _ => rfl
    refine ⟨ids, done, todo, next, walk, m, rfl, hrow, hwalks.passed, chosen, fun id hid => ?_, hworld,
      ?_, fun hG => ?_, fun id hm => (hturns id hm).mono (Nat.le_succ m)⟩
    · rw [hworld]
      exact gone id hid
    · cases hends
      exact stepped
    · rw [stepped_succ, quiet, hids hG]
      simp

end Passes

theorem left_of_run (hm : id ∈ p.world.order q) (hgone : id ∉ (p.run n).world.order q) :
    ∃ l < n, id ∈ (p.run l).world.order q ∧ id ∉ (p.run (l + 1)).world.order q := by
  induction n with
  | zero => exact absurd hm hgone
  | succ n ih =>
    by_cases hn : id ∈ (p.run n).world.order q
    · exact ⟨n, Nat.lt_succ_self n, hn, hgone⟩
    · obtain ⟨l, hl, hleft⟩ := ih hn
      exact ⟨l, Nat.lt_succ_of_lt hl, hleft⟩

theorem Removes.not_begins {q' : Nat} {id' : TaskId} (h : p.Removes q id) : ¬ p.Begins q' id' := by
  obtain ⟨w, control⟩ := p
  obtain ⟨_, k, hcontrol, _, name, rfl, _⟩ := h
  cases hcontrol
  intro hbegins
  have hturns : (w.perform (.queue q (.remove name)) k).control.turns = k.turns :=
    (w.within_perform rfl k).stack.turns
  exact absurd (congrArg List.length (hbegins.symm.trans hturns)) (Nat.succ_ne_self _)

/-- A task that is removed while a pass goes on is removed by the step of a task that was visited. -/
theorem Sound.turn_of_removes (h : p.Sound) (hstage : p.Stage q k start True ids done todo)
    (hgentle : p.Gentle q k) (hqueued : id ∈ p.world.order q) (hleft : id ∉ p.step.world.order q)
    (hremoves : p.Removes q id) : ∃ id' ∈ ids, (q, id') ∈ p.control.turns := by
  cases hstage with
  | start steps turns =>
    cases horder : p.world.order q with
    | nil => rw [horder] at hqueued; cases hqueued
    | cons id' rest =>
      obtain ⟨task, ht⟩ := (World.mem_order h.queues).1 (horder ▸ List.mem_cons_self .. : id' ∈ _)
      rw [horder] at steps
      exact absurd (begins_walkOn steps turns ht) hremoves.not_begins
  | @turn id' walk past before stack visited stepped last mark =>
    rw [last]
    exact ⟨id', List.mem_append_right _ (List.mem_singleton_self _),
      stack.turns.subset (List.mem_cons_self ..)⟩
  | clearing stack visited stepped chosen rests =>
    cases Process.holds stack (by decide) with
    | above deeper stays =>
      rw [(hgentle deeper (rests trivial)).1] at hleft
      exact absurd hqueued hleft
    | result | payload =>
      obtain ⟨_, _, hcontrol, _⟩ := hremoves
      cases hcontrol

/-- A task that was queued at the start of a pass and is queued no more was stepped, or removed by a
step. -/
theorem Passes.stepped_or_removed (h : p.Passes q k n w r) (hp : p.Sound)
    (hgentle : ∀ l < n, (p.run l).Gentle q k) (hm : id ∈ p.world.order q) (hgone : id ∉ w.order q) :
    id ∈ p.stepped q n ∨ ∃ l < n, (p.run l).Removes q id ∧
      ∃ id' ∈ p.stepped q l, (q, id') ∈ (p.run l).control.turns := by
  -- how the task has left is decided at the moment when it leaves
  obtain ⟨l, hl, hqueued, hleft⟩ := left_of_run (n := n) hm (by rw [h.returns]; exact hgone)
  have hs := hp.run l
  rw [run_succ_step] at hleft
  obtain ⟨task, ht⟩ := (World.mem_order hs.queues).1 hqueued
  have hnone := (World.task?_eq_none_iff hs.step.2.queues).2 hleft
  obtain hremoves | ⟨walk, k', hdone⟩ := hs.leaves ht hnone
  · obtain ⟨ids, done, todo, _, hwalks, hids, _⟩ := h.stands (G := True) hp (fun _ => hgentle) hl
    rw [hids trivial] at hwalks
    exact .inr ⟨l, hl, hremoves,
      hs.turn_of_removes hwalks.stage (hgentle l hl) hqueued hleft hremoves⟩
  · left
    have hturn : (q, id) ∈ (p.run l).control.turns := by
      rw [hdone]
      exact List.mem_cons_self ..
    obtain hturn | hstepped := mem_stepped_of_turn hturn
    · obtain ⟨Q, hQ, hidle⟩ := h.idle
      cases hidle.symm.trans ((hp.ready.running hturn).current hQ)
    · obtain ⟨j, hj, hbegins⟩ := mem_stepped.1 hstepped
      exact mem_stepped.2 ⟨j, Nat.lt_trans hj hl, hbegins⟩

end Process

namespace Course

variable {s : Course}

theorem eq_run_of_passes (h : (s i).Passes q k n w r) (hl : l ≤ n) : s (i + l) = (s i).run l := by
  induction l with
  | zero => rfl
  | succ l ih =>
    have hprev := ih (Nat.le_of_succ_le hl)
    rw [← Nat.add_assoc, succ_eq_step (by rw [hprev]; exact h.not_ended hl), hprev,
      Process.run_succ_step]

theorem pushes_of_passes (h : (s i).Passes q k n w r) (hl : l ≤ n) :
    pushes s q (i + l) = pushes s q i ++ pushes ((s i).run ·) q l := by
  induction l with
  | zero => simp [pushes]
  | succ l ih =>
    rw [← Nat.add_assoc, pushes_succ, pushes_succ, ih (Nat.le_of_succ_le hl), List.append_assoc,
      eq_run_of_passes h (Nat.le_of_succ_le hl)]

/-- A pass that returns, where the queue is left alone between two turns, steps tasks in the order in
which they were pushed in the session, none twice. It has stepped all that are queued when it returns,
and of those that were queued when it started all but the ones that were removed by steps before. It
returns how many it has stepped. -/
theorem walk_of_pass (s : Course) (hpass : (s i).Passes q k n w r)
    (hgentle : ∀ l < n, ((s i).run l).Gentle q k) :
    (s i).stepped q n <+ pushes s q (i + n) ∧ (pushes s q (i + n)).Nodup ∧
    (∀ id ∈ w.order q, id ∈ (s i).stepped q n) ∧
    (∀ id ∈ (s i).world.order q, id ∈ (s i).stepped q n ∨
      ∃ l < n, ((s i).run l).Removes q id ∧
        ∃ id' ∈ (s i).stepped q l, (q, id') ∈ ((s i).run l).control.turns) ∧
    r = ((s i).stepped q n).length := by
  obtain ⟨ids, done, todo, next, walk, m, hm, hrow, hpassed, hchosen, hgone, horder, hcount, hids, _⟩ :=
    hpass.last (G := True) (s.sound i) fun _ => hgentle
  have hnext := hchosen.gentle trivial
  rw [hids trivial] at hcount hpassed hnext
  have hall : ∀ id ∈ w.order q, id ∈ (s i).stepped q n := by
    cases next with
    | none =>
      intro id hqueued
      rw [horder] at hqueued
      simpa using List.find?_eq_none.1 hnext.symm id hqueued
    | some id => exact absurd (horder ▸ List.mem_of_find?_eq_some hnext.symm) (hgone id rfl).1
  refine ⟨?_, (s.lists q _).nodup, hall, fun id hm => ?_, hcount⟩
  · rw [pushes_of_passes hpass (Nat.le_refl n), hm, pushes_succ, ← List.append_assoc]
    calc (s i).stepped q (m + 1)
      _ <+ done ++ todo := hm ▸ hpassed.visited.trans (List.sublist_append_left ..)
      _ = (s i).world.order q ++ pushes ((s i).run ·) q m := hrow
      _ <+ pushes s q i ++ pushes ((s i).run ·) q m := (s.lists q i).order.append (.refl _)
      _ <+ _ := List.sublist_append_left ..
  · by_cases hqueued : id ∈ w.order q
    · exact .inl (hall id hqueued)
    · exact hpass.stepped_or_removed (s.sound i) hgentle hm hqueued

/-- Tasks that remove others and themselves while they are stepped, and push one. -/
def walking : Course :=
  .ofCommands [{}] []
    [.act (.queue 0 (.idle "A" [⟨[.queue 0 (.remove "B"), .queue 0 (.idle "E" [] none)], .again⟩]
        none)),
      .act (.queue 0 (.idle "B" [] none)),
      .act (.queue 0 (.idle "C" [⟨[.queue 0 (.remove "C"), .queue 0 (.remove "A")], .again⟩]
        (some [.advance 1]))),
      .act (.queue 0 (.idle "D" [⟨[], .again⟩] none)),
      .act (.queue 0 .runPass)]

theorem walk_of_pass_walking :
    (walking 13).stepped 0 25 = [⟨1, 1⟩, ⟨3, 1⟩, ⟨4, 1⟩, ⟨2, 3⟩] ∧
    (walking 13).stepped 0 25 <+ pushes walking 0 38 ∧
    (∀ id ∈ ((walking 13).run 25).world.order 0, id ∈ (walking 13).stepped 0 25) ∧
    (∃ l < 25, ((walking 13).run l).Removes 0 ⟨2, 1⟩ ∧
      ∃ id' ∈ (walking 13).stepped 0 l, (0, id') ∈ ((walking 13).run l).control.turns) ∧
    (walking 13).Passes 0 (.cons .passReply .outermost) 25 ((walking 13).run 25).world 4 := by
  have hpass : (walking 13).Passes 0 (.cons .passReply .outermost) 25 ((walking 13).run 25).world 4 :=
    Process.passes_runPass (by cbv) (by decide +kernel) (by decide) (by decide +kernel) (by cbv)
  have hgentle : ∀ l < 25, ((walking 13).run l).Gentle 0 (.cons .passReply .outermost) := by
    simp only [Process.Gentle]
    decide +kernel
  have hstepped : (walking 13).stepped 0 25 = [⟨1, 1⟩, ⟨3, 1⟩, ⟨4, 1⟩, ⟨2, 3⟩] := by decide +kernel
  obtain ⟨hsublist, _, hqueued, hstart, _⟩ := walking.walk_of_pass hpass hgentle
  refine ⟨hstepped, hsublist, hqueued, ?_, hpass⟩
  refine (hstart ⟨2, 1⟩ (by decide +kernel)).resolve_left ?_
  rw [hstepped]
  decide

theorem pair_sublist {rest new : List TaskId} {id₁ : TaskId}
    (hrow : done ++ id₁ :: rest = start ++ new) (hm : id ∈ start) (hdone : id ∉ done)
    (hne : id ≠ id₁) : [id₁, id] <+ start := by
  obtain ⟨bs, rfl, _⟩ | ⟨as, rfl, has⟩ := List.append_eq_append_iff.1 hrow.symm
  · exact absurd (List.mem_append_left _ hm) hdone
  · have hm' : id ∈ as := (List.mem_append.1 hm).resolve_left hdone
    cases as with
    | nil => cases hm'
    | cons id₂ as =>
      obtain ⟨rfl, _⟩ := List.cons.inj has
      exact (List.cons_sublist_cons.2 (List.singleton_sublist.2
        ((List.mem_cons.1 hm').resolve_left hne))).trans (List.sublist_append_right ..)

/-- A task that is queued when a pass starts and when it returns has had a turn of the pass, unless
the pass has ended early: the task that it was to go on with had left the queue after it was chosen,
and was queued before the one that has missed its turn. -/
theorem turn_of_pass (s : Course) (hpass : (s i).Passes q k n w r)
    (hstart : id ∈ (s i).world.order q) (hend : id ∈ w.order q) :
    (s i).HasTurn q k n id ∨ ∃ (w₁ : World) (id₁ : TaskId) (walk : Walk),
      (s i).run (n - 1) = w₁.deliver (.cons (.walk q (some id₁) walk) k) () ∧ id₁ ∉ w₁.order q ∧
        [id₁, id] <+ (s i).world.order q := by
  obtain ⟨ids, done, todo, next, walk, m, rfl, hrow, hpassed, hchosen, hgone, horder, _, _, hturns⟩ :=
    hpass.last (G := False) (s.sound i) False.elim
  by_cases hvisited : id ∈ ids
  · exact .inl (hturns id hvisited)
  · have hdone : id ∉ done := fun hm => hvisited (hpassed.left id hm (horder ▸ hend))
    cases next with
    | none => exact absurd (hchosen.ends rfl hstart) hdone
    | some id₁ =>
      -- the pass broke off, and the task is still ahead of it
      obtain ⟨hnot, hcontrol⟩ := hgone id₁ rfl
      obtain ⟨rest, rfl⟩ := List.head?_eq_some_iff.1 (hchosen.ahead id₁ rfl)
      refine .inr ⟨_, id₁, walk, hcontrol, horder ▸ hnot, pair_sublist hrow hstart hdone ?_⟩
      rintro rfl
      exact hnot hend

/-- A task whose destruction removes the one that comes after the next, and pushes one. -/
def sparing : Course :=
  .ofCommands [{}] []
    [.act (.queue 0 (.idle "A" [] (some [.queue 0 (.remove "C"), .queue 0 (.idle "E" [] none)]))),
      .act (.queue 0 (.idle "B" [] none)), .act (.queue 0 (.idle "C" [] none)),
      .act (.queue 0 (.idle "D" [⟨[], .again⟩] none)), .act (.queue 0 .runPass)]

theorem turn_of_pass_sparing :
    (sparing 13).Passes 0 (.cons .passReply .outermost) 16 ((sparing 13).run 16).world 4 ∧
    (⟨4, 1⟩ : TaskId) ∈ ((sparing 13).run 16).world.order 0 ∧
    (sparing 13).HasTurn 0 (.cons .passReply .outermost) 16 ⟨4, 1⟩ := by
  have hpass : (sparing 13).Passes 0 (.cons .passReply .outermost) 16 ((sparing 13).run 16).world 4 :=
    Process.passes_runPass (by cbv) (by decide +kernel) (by decide) (by decide +kernel) (by cbv)
  have hend : (⟨4, 1⟩ : TaskId) ∈ ((sparing 13).run 16).world.order 0 := by decide +kernel
  refine ⟨hpass, hend, (sparing.turn_of_pass hpass (by decide +kernel) hend).resolve_right ?_⟩
  rintro ⟨w₁, id₁, walk, hlast, _⟩
  have hcontrol : ((sparing 13).run 15).control = .deliver (() : Hole.done.Result)
      (.cons (.walk 0 none ⟨[⟨3, 3⟩, ⟨4, 1⟩, ⟨2, 1⟩, ⟨1, 1⟩], 4, 3⟩)
        (.cons .passReply .outermost)) := by cbv
  rw [hlast] at hcontrol
  cases hcontrol

def skipping : Course :=
  .ofCommands [{}] []
    [.act (.queue 0 (.idle "A" [] (some [.queue 0 (.remove "B")]))),
      .act (.queue 0 (.idle "B" [] none)), .act (.queue 0 (.idle "C" [] none)),
      .act (.queue 0 .runPass)]

/-- A pass that steps one task of three: the second is removed before its turn, and the third is queued
all the time. -/
theorem pass_skips :
    (skipping 10).Passes 0 (.cons .passReply .outermost) 7 ((skipping 10).run 7).world 1 ∧
    (∀ l ≤ 7, (⟨3, 1⟩ : TaskId) ∈ ((skipping 10).run l).world.order 0) ∧
    (⟨3, 1⟩ : TaskId) ∉ (skipping 10).stepped 0 7 := by
  refine ⟨Process.passes_runPass (by cbv) (by decide +kernel) (by decide) (by decide +kernel) (by cbv),
    ?_, by decide +kernel⟩
  decide +kernel

end Course

end TaskLoop
