import TaskLoop.Proofs.ScriptLife

namespace TaskLoop

variable {a b c : Hole} {w : World} {q d i j : Nat} {id : TaskId} {p : Process} {s : Course}
  {Q : Queue} {task : Task}

namespace Pending

def swept : {a : Hole} → Pending a → List Task
  | _, .outermost => []
  | _, .cons f k => f.swept ++ k.swept

theorem Piled.swept {k : Pending c} {rs : List Task} {k' : Pending a} (h : k.Piled rs k') :
    k'.swept = rs ++ k.swept := by
  induction h with
  | refl => rfl
  | cons _ _ ih => rw [Pending.swept, ih, List.append_assoc]

end Pending

namespace Control

def swept : Control → List Task
  | .perform _ k => k.swept
  | .deliver _ k => k.swept
  | .unwind _ k => k.swept
  | _ => []

theorem Piled.swept {k : Pending c} {rs : List Task} {control : Control} (h : control.Piled k rs) :
    control.swept = rs ++ k.swept := by
  cases control with
  | perform | deliver | unwind => exact Pending.Piled.swept h
  | answered | escaped | aborted => exact h.elim

theorem swept_of_ended {control : Control} (h : control.ended = true) : control.swept = [] := by
  cases control with
  | perform | deliver | unwind | aborted => cases h
  | answered | escaped => rfl

end Control

namespace Process

theorem Shifts.swept {E : Prop} {k : Pending c} {rs : List Task} (h : p.Shifts w E k rs) :
    p.control.swept = rs ++ k.swept ∨ p.control = .aborted := by
  cases h with
  | piles stack => exact .inl stack.swept
  | @enters q id task walk k' _ queued stack =>
    have hstepping := World.stepping_enter queued walk k'
    rw [← stack.swept]
    generalize World.stepTask _ q id task _ = p at hstepping ⊢
    cases hstepping with
    | verdict => exact .inl rfl
    | @within _ f _ steps within =>
      have hf : f.swept = [] := by cases f <;> trivial
      left
      rw [within.stack.piled.swept, Pending.swept, hf]
      rfl
  | aborts aborted => exact .inr aborted

/-- The records that wait to be destroyed with their queue are the same after a transition, or the
first of them is destroyed. -/
theorem swept_step (p : Process) :
    p.step.control.swept = p.control.swept ∨ p.step.control = .aborted ∨
      ∃ task rest k, p.control = .deliver () (.cons (.sweep (task :: rest)) k) ∧
        p.step.control.swept = rest ++ k.swept := by
  obtain ⟨w, control⟩ := p
  cases control with
  | perform action k => exact (w.shifts_perform action k).swept.imp_right .inl
  | deliver result k =>
    cases k with
    | outermost => exact .inl rfl
    | cons f k =>
      rw [step_deliver]
      obtain hswept | haborted := (f.shifts_resume result w k).swept
      · cases f with
        | sweep rest =>
          cases rest with
          | nil => exact .inl hswept
          | cons task rest => exact .inr (.inr ⟨task, rest, k, rfl, hswept⟩)
        | _ => exact .inl hswept
      · exact .inr (.inl haborted)
  | unwind payload k =>
    cases k with
    | outermost => exact .inl rfl
    | cons f k =>
      rw [step_unwind]
      exact (f.shifts_unwind payload w k).swept.imp_right .inl
  | answered | escaped | aborted => exact .inl rfl

theorem length_swept_step (p : Process) :
    p.step.control.swept.length ≤ p.control.swept.length := by
  obtain hswept | haborted | ⟨task, rest, k, hcontrol, hswept⟩ := p.swept_step
  · rw [hswept]
  · rw [haborted]
    exact Nat.zero_le _
  · rw [hswept, hcontrol]
    exact Nat.le_succ _

end Process

theorem World.swept_begin_dropQueue (hQ : w.queue? q = some Q) :
    (w.begin (.dropQueue q)).control.swept = Q.tasks.records ∧
      (w.begin (.dropQueue q)).control.ended = false := by
  simp only [begin, dropQueue, show ({ w with log := [] } : World).queue? q = some Q from hQ]
  exact ⟨List.append_nil _, rfl⟩

theorem World.swept_begin (w : World) (command : Command) :
    (w.begin command).control.swept = [] ∨
      ∃ q Q, command = .dropQueue q ∧ w.queue? q = some Q := by
  cases command with
  | act action => exact .inl rfl
  | dropQueue q =>
    cases hQ : w.queue? q with
    | none =>
      left
      simp only [begin, dropQueue, show ({ w with log := [] } : World).queue? q = none from hQ]
      rfl
    | some Q => exact .inr ⟨q, Q, rfl, hQ⟩

namespace Course

/-- The record is the next one to be destroyed with its queue: in the order of the slots, as many of
the queue's records are left as come after it. -/
def Sweeps (s : Course) (i q : Nat) (id : TaskId) (task : Task) : Prop :=
  ∃ d Q rest tasks k, s.Dropping d i q ∧ (s d).world.queue? q = some Q ∧
    (id, task) :: rest <:+ Q.tasks.entries ∧
    (s i).control = .deliver () (.cons (.sweep (task :: tasks)) k) ∧
    (s i).control.swept = task :: rest.map Prod.snd

theorem Sweeps.step_eq (h : s.Sweeps i q id task) :
    ∃ (w' : World) (k : Pending .done), s (i + 1) = w'.destroy task k := by
  obtain ⟨d, Q, rest, tasks, k, ⟨_, hd, hgoes⟩, _, _, hcontrol, _⟩ := h
  rw [succ_eq_step (hgoes i hd (Nat.le_refl i)), Process.eq_deliver hcontrol]
  exact ⟨_, _, rfl⟩

structure Swept (s : Course) (d i q : Nat) (Q : Queue) (rest : List (TaskId × Task)) : Prop where
  suffix : rest <:+ Q.tasks.entries
  left : (s i).control.swept = rest.map Prod.snd
  done : ∀ id task, (id, task) ∈ Q.tasks.entries →
    (id, task) ∈ rest ∨ ∃ l, d < l ∧ l < i ∧ s.Sweeps l q id task

theorem swept_drops (hdrops : s.Drops d q) (hQ : (s d).world.queue? q = some Q) :
    s.Swept d (d + 1) q Q Q.tasks.entries ∧ s.Dropping d (d + 1) q := by
  have hcontrol : (s (d + 1)).control.swept = Q.tasks.records ∧
      (s (d + 1)).control.ended = false := by
    rw [hdrops.2]
    exact World.swept_begin_dropQueue hQ
  refine ⟨⟨List.suffix_refl _, ?_, fun id task hm => .inl hm⟩, hdrops, Nat.lt_succ_self d, ?_⟩
  · rw [hcontrol.1, Arena.map_snd_entries]
  · intro l hdl hl
    obtain rfl : l = d + 1 := by omega
    exact hcontrol.2

theorem Swept.succ {rest : List (TaskId × Task)} (h : s.Swept d i q Q rest)
    (hdropping : s.Dropping d i q) (hQ : (s d).world.queue? q = some Q)
    (halive : (s (i + 1)).control ≠ .aborted) : ∃ rest', s.Swept d (i + 1) q Q rest' := by
  have hdone : ∀ id task, (id, task) ∈ Q.tasks.entries →
      (id, task) ∈ rest ∨ ∃ l, d < l ∧ l < i + 1 ∧ s.Sweeps l q id task := fun id task hm => by
    obtain hm | ⟨l, hdl, hl, hsweeps⟩ := h.done id task hm
    · exact .inl hm
    · exact .inr ⟨l, hdl, Nat.lt_succ_of_lt hl, hsweeps⟩
  have hstep := succ_eq_step (hdropping.2.2 i hdropping.2.1 (Nat.le_refl i))
  obtain hswept | haborted | ⟨task, tasks, k, hcontrol, hswept⟩ := (s i).swept_step
  · exact ⟨rest, h.suffix, by rw [hstep, hswept, h.left], hdone⟩
  · rw [hstep] at halive
    exact absurd haborted halive
  · have hleft := h.left
    have hswept' : (s i).control.swept = task :: (tasks ++ k.swept) := by
      rw [hcontrol]
      rfl
    rw [hswept'] at hleft
    cases rest with
    | nil => cases hleft
    | cons entry rest =>
      obtain ⟨id, task'⟩ := entry
      obtain ⟨rfl, htasks⟩ := List.cons.inj hleft
      refine ⟨rest, (List.suffix_cons _ _).trans h.suffix, by rw [hstep, hswept, htasks], ?_⟩
      intro id' task' hm
      obtain hm | hswept := hdone id' task' hm
      · obtain heq | hm := List.mem_cons.1 hm
        · cases heq
          refine .inr ⟨i, hdropping.2.1, Nat.lt_succ_self i, d, Q, rest, tasks, k, hdropping, hQ,
            h.suffix, hcontrol, ?_⟩
          rw [hswept', htasks]
        · exact .inl hm
      · exact .inr hswept

theorem exists_swept (hdrops : s.Drops d q) (hQ : (s d).world.queue? q = some Q) (hdi : d < i)
    (hgoes : ∀ l, d < l → l < i → (s l).control.ended = false)
    (halive : (s i).control ≠ .aborted) : ∃ rest, s.Swept d i q Q rest := by
  induction hdi with
  | refl => exact ⟨_, (swept_drops hdrops hQ).1⟩
  | @step i hdi ih =>
    obtain ⟨rest, hswept⟩ := ih (fun l hdl hl => hgoes l hdl (Nat.lt_succ_of_lt hl))
      (alive_of_le halive (Nat.le_succ i))
    exact hswept.succ ⟨hdrops, hdi, fun l hdl hl => hgoes l hdl (Nat.lt_succ_of_le hl)⟩ hQ halive

/-- When a command that dropped a queue has ended, every record of the queue has been destroyed. -/
theorem sweeps_of_drops (hdrops : s.Drops d q) (hQ : (s d).world.queue? q = some Q)
    (hg : Q.get? id = some task) (hdi : d < i) (hended : (s i).control.ended = true) :
    ∃ l, d < l ∧ l < i ∧ s.Sweeps l q id task := by
  -- the first end after the drop
  have hexists : ∃ e, d < e ∧ (s e).control.ended = true := ⟨i, hdi, hended⟩
  classical
  obtain ⟨hde, hend⟩ := Nat.find_spec hexists
  have hei := Nat.find_min' hexists ⟨hdi, hended⟩
  have hgoes : ∀ l, d < l → l < Nat.find hexists → (s l).control.ended = false := fun l hdl hl =>
    Bool.eq_false_iff.2 fun h => Nat.find_min hexists hl ⟨hdl, h⟩
  obtain ⟨rest, hswept⟩ := exists_swept hdrops hQ hde hgoes (Control.ne_aborted_of_ended hend)
  have hnil : rest = [] := by
    have hleft := hswept.left
    rw [Control.swept_of_ended hend] at hleft
    exact List.map_eq_nil_iff.1 hleft.symm
  obtain hm | ⟨l, hdl, hl, hsweeps⟩ := hswept.done id task (Arena.mem_entries.2 hg)
  · rw [hnil] at hm
    cases hm
  · exact ⟨l, hdl, Nat.lt_of_lt_of_le hl hei, hsweeps⟩

theorem length_swept_of_le (hij : i ≤ j) (hgoes : ∀ l, i ≤ l → l < j → (s l).control.ended = false) :
    (s j).control.swept.length ≤ (s i).control.swept.length := by
  induction hij with
  | refl => exact Nat.le_refl _
  | @step j hij ih =>
    rw [succ_eq_step (hgoes j hij (Nat.lt_succ_self j))]
    exact (s j).length_swept_step.trans (ih fun l hil hl => hgoes l hil (Nat.lt_succ_of_lt hl))

theorem queue?_of_drops (hdrops : s.Drops d q) (hdi : d < i) : (s i).world.queue? q = none := by
  refine Option.eq_none_iff_forall_ne_some.2 fun Q hQ => ?_
  obtain ⟨Q', hQ', _⟩ := moves (Nat.succ_le_of_lt hdi) hQ
  rw [hdrops.2, World.queue?_begin_dropQueue] at hQ'
  cases hQ'

theorem drops_unique {d' : Nat} {Q' : Queue} (hdrops : s.Drops d q) (hdrops' : s.Drops d' q)
    (hQ : (s d).world.queue? q = some Q) (hQ' : (s d').world.queue? q = some Q') : d = d' := by
  refine Nat.le_antisymm (Nat.not_lt.1 fun hlt => ?_) (Nat.not_lt.1 fun hlt => ?_)
  · cases (queue?_of_drops hdrops' hlt).symm.trans hQ
  · cases (queue?_of_drops hdrops hlt).symm.trans hQ'

theorem length_eq_of_suffix {l rest rest' : List (TaskId × Task)} {task' : Task}
    (hnodup : (l.map Prod.fst).Nodup) (h : (id, task) :: rest <:+ l)
    (h' : (id, task') :: rest' <:+ l) : rest.length = rest'.length := by
  have hwithin : ∀ {rest rest' : List (TaskId × Task)} {task task' : Task},
      (id, task') :: rest' <:+ l → (id, task) :: rest <:+ (id, task') :: rest' →
      rest.length = rest'.length := fun {rest rest' task task'} h' h => by
    obtain heq | hsuffix := List.suffix_cons_iff.1 h
    · rw [(List.cons.inj heq).2]
    · -- the id would stand in the row twice
      have hrow := hnodup.sublist (h'.sublist.map Prod.fst)
      exact absurd (List.mem_map_of_mem (hsuffix.subset (List.mem_cons_self ..)))
        (List.nodup_cons.1 hrow).1
  obtain hsuffix | hsuffix := List.suffix_or_suffix_of_suffix h h'
  · exact hwithin h' hsuffix
  · exact (hwithin h hsuffix).symm

/-- A record is destroyed with its queue once. -/
theorem sweeps_unique {task' : Task} (hi : s.Sweeps i q id task) (hj : s.Sweeps j q id task') :
    i = j := by
  have hlt : ∀ {i j : Nat} {task task' : Task}, s.Sweeps i q id task → s.Sweeps j q id task' →
      ¬ i < j := fun {i j task task'} hi hj hij => by
    obtain ⟨d, Q, rest, tasks, k, hdropping, hQ, hsuffix, hcontrol, hswept⟩ := hi
    obtain ⟨d', Q', rest', tasks', k', hdropping', hQ', hsuffix', _, hswept'⟩ := hj
    obtain rfl := drops_unique hdropping.1 hdropping'.1 hQ hQ'
    obtain rfl := Option.some.inj (hQ.symm.trans hQ')
    have hlength := length_eq_of_suffix (Arena.nodup_entries _) hsuffix hsuffix'
    have hgoes : ∀ l, i ≤ l → l < j → (s l).control.ended = false := fun l hil hl =>
      hdropping'.2.2 l (Nat.lt_of_lt_of_le hdropping.2.1 hil) (Nat.le_of_lt hl)
    have hnext : (s (i + 1)).control.swept = rest.map Prod.snd := by
      rw [hcontrol] at hswept
      rw [succ_eq_step (hgoes i (Nat.le_refl i) hij), Process.eq_deliver hcontrol, World.deliver,
        Process.step_deliver, Activation.resume, World.over_destroy.piled.swept]
      exact (List.cons.inj hswept).2
    have hle := length_swept_of_le (Nat.succ_le_of_lt hij) fun l hil hl =>
      hgoes l (Nat.le_of_succ_le hil) hl
    rw [hswept', hnext, List.length_cons, List.length_map, List.length_map, ← hlength] at hle
    exact absurd hle (Nat.not_succ_le_self _)
  exact Nat.le_antisymm (Nat.not_lt.1 (hlt hj hi)) (Nat.not_lt.1 (hlt hi hj))

theorem dropping_of_swept (h : (s i).control.swept ≠ []) :
    ∃ d q Q, s.Dropping d i q ∧ (s d).world.queue? q = some Q := by
  induction i with
  | zero =>
    obtain ⟨start, queues, engines, hstart⟩ := s.starts
    rw [show s 0 = _ from hstart] at h
    exact absurd rfl h
  | succ i ih =>
    have hgoes : (s (i + 1)).control.ended = false :=
      Bool.eq_false_iff.2 fun hended => h (Control.swept_of_ended hended)
    obtain hstep | ⟨hended, command, hbegin⟩ := s.step_or_begin i
    · have hbefore : (s i).control.swept ≠ [] := by
        obtain hswept | haborted | ⟨task, tasks, k, hcontrol, _⟩ := (s i).swept_step
        · rwa [hstep, hswept] at h
        · rw [hstep, haborted] at h
          exact absurd rfl h
        · rw [hcontrol]
          exact List.cons_ne_nil _ _
      obtain ⟨d, q, Q, hdropping, hQ⟩ := ih hbefore
      exact ⟨d, q, Q, hdropping.succ hgoes, hQ⟩
    · obtain hnil | ⟨q, Q, rfl, hQ⟩ := (s i).world.swept_begin command
      · rw [hbegin] at h
        exact absurd hnil h
      · exact ⟨i, q, Q, (swept_drops ⟨hended, hbegin⟩ hQ).2, hQ⟩

/-- Whatever record is destroyed with a queue, it is one of those that the queue had when it was
dropped. -/
theorem sweeps_of_control {tasks : List Task} {k : Pending .done}
    (hcontrol : (s i).control = .deliver () (.cons (.sweep (task :: tasks)) k)) :
    ∃ q id, s.Sweeps i q id task := by
  have hswept : (s i).control.swept = task :: (tasks ++ k.swept) := by
    rw [hcontrol]
    rfl
  obtain ⟨d, q, Q, hdropping, hQ⟩ := dropping_of_swept (s := s) (i := i)
    (by rw [hswept]; exact List.cons_ne_nil _ _)
  have halive : (s i).control ≠ .aborted := by
    rw [hcontrol]
    exact fun h => by cases h
  obtain ⟨rest, hrest⟩ := exists_swept hdropping.1 hQ hdropping.2.1
    (fun l hdl hl => hdropping.2.2 l hdl (Nat.le_of_lt hl)) halive
  have hleft := hrest.left
  rw [hswept] at hleft
  cases rest with
  | nil => cases hleft
  | cons entry rest =>
    obtain ⟨id, task'⟩ := entry
    obtain ⟨rfl, htasks⟩ := List.cons.inj hleft
    exact ⟨q, id, d, Q, rest, tasks, k, hdropping, hQ, hrest.suffix, hcontrol,
      by rw [hswept, htasks]⟩

end Course

end TaskLoop
