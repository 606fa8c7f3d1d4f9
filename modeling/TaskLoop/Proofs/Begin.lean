import TaskLoop.Proofs.Step

namespace TaskLoop

variable {a b c : Hole} {w : World} {q : Nat} {id : TaskId} {p : Process} {ts : List (Nat × TaskId)}

inductive Process.Enters (w : World) (ts : List (Nat × TaskId)) (q : Nat) (id : TaskId) :
    Process → Prop
  | intro {task : Task} {walk : Walk} {k : Pending .pass} (queued : w.task? q id = some task)
      (turns : k.turns = ts) : Enters w ts q id
        ((w.modifyQueue q (·.enter id)).stepTask q id task (.cons (.turn q id walk) k))

namespace Activation

def swept : Activation a b → List Task
  | .sweep rest => rest
  | _ => []

def Light : Activation a b → Prop
  | .idle _ | .firing .. | .quiet .. | .script .. | .turn .. => False
  | _ => True

theorem Light.turn? {f : Activation a b} (h : f.Light) : f.turn? = none := by
  cases f <;> trivial

theorem Plain.light {f : Activation a b} (h : f.Plain) : f.Light := by
  cases f <;> trivial

theorem Plain.swept {f : Activation a b} (h : f.Plain) : f.swept = [] := by
  cases f <;> trivial

end Activation

/-- A stack on top of another one, with neither turns nor steps of tasks in between. These records
are to be destroyed with their queue. -/
inductive Pending.Piled (k : Pending c) : {a : Hole} → List Task → Pending a → Prop
  | refl : Piled k [] k
  | cons {a b : Hole} {f : Activation a b} {rs : List Task} {k' : Pending b} (light : f.Light)
      (above : k.Piled rs k') : Piled k (f.swept ++ rs) (.cons f k')

namespace Pending

variable {k : Pending c} {k' : Pending a} {rs : List Task}

theorem Over.piled (h : k.Over k') : k.Piled [] k' := by
  induction h with
  | refl => exact .refl
  | cons plain _ ih =>
    have hcons := Piled.cons plain.light ih
    rwa [plain.swept] at hcons

theorem Piled.lower {f : Activation b c} (h : (Pending.cons f k).Piled rs k') (hf : f.Light) :
    k.Piled (rs ++ f.swept) k' := by
  induction h with
  | refl =>
    have hcons := Piled.cons hf (.refl (k := k))
    rwa [List.append_nil] at hcons
  | cons light _ ih => exact List.append_assoc .. ▸ .cons light ih

theorem Piled.turns (h : k.Piled rs k') : k'.turns = k.turns := by
  induction h with
  | refl => rfl
  | cons light _ ih => rw [turns_cons light.turn?, ih]

end Pending

namespace Control

def Piled (k : Pending c) (rs : List Task) : Control → Prop
  | .perform _ k' => k.Piled rs k'
  | .deliver _ k' => k.Piled rs k'
  | .unwind _ k' => k.Piled rs k'
  | _ => False

variable {k : Pending c} {rs : List Task} {control : Control}

theorem Over.piled (h : control.Over k) : control.Piled k [] := by
  cases control with
  | perform | deliver | unwind => exact Pending.Over.piled h
  | answered | escaped | aborted => exact h.elim

theorem Piled.lower {f : Activation b c} (h : control.Piled (.cons f k) rs) (hf : f.Light) :
    control.Piled k (rs ++ f.swept) := by
  cases control with
  | perform | deliver | unwind => exact Pending.Piled.lower h hf
  | answered | escaped | aborted => exact h.elim

theorem Piled.turns (h : control.Piled k rs) : control.turns = k.turns := by
  cases control with
  | perform | deliver | unwind => exact Pending.Piled.turns h
  | answered | escaped | aborted => exact h.elim

end Control

/-- What a transition makes of a stack: something comes on top of it, a pass steps a task if this may
be, or everything is over. -/
inductive Process.Shifts (w : World) (E : Prop) (k : Pending c) (rs : List Task) : Process → Prop
  | piles {p : Process} (stack : p.control.Piled k rs) : Shifts w E k rs p
  | enters {q : Nat} {id : TaskId} {task : Task} {walk : Walk} {k' : Pending .pass} (may : E)
      (queued : w.task? q id = some task) (stack : k.Piled rs k') : Shifts w E k rs
        ((w.modifyQueue q (·.enter id)).stepTask q id task (.cons (.turn q id walk) k'))
  | aborts {p : Process} (aborted : p.control = .aborted) : Shifts w E k rs p

namespace World

variable {E : Prop}

theorem Walks.shifts {k : Pending a} (h : w.Walks True k p) (hE : E) : p.Shifts w E k [] := by
  induction h with
  | rests => exact .piles .refl
  | enters queued => exact .enters hE queued .refl
  | @awaited _ _ f k _ awaits _ ih =>
    have hf : f.Light := by cases f <;> trivial
    have hswept : f.swept = [] := by cases f <;> trivial
    cases ih with
    | piles stack => exact .piles (hswept ▸ stack.lower hf)
    | enters _ queued stack => exact .enters hE queued (hswept ▸ stack.lower hf)
    | aborts aborted => exact .aborts aborted

theorem piled_endTurn (w : World) (q : Nat) (id : TaskId) (walk : Walk) (verdict : Verdict)
    (k : Pending .pass) : (w.endTurn q id walk verdict k).control.Piled k [] := by
  have hcloses := closes_endTurn w q id walk verdict k
  generalize w.endTurn q id walk verdict k = p at hcloses ⊢
  cases hcloses with
  | missing => exact .refl
  | completes | destroys => exact over_destroy.piled.lower trivial
  | @leaves _ next walk₁ => exact Pending.Piled.cons (f := .walk q next walk₁) trivial .refl

theorem piled_abandonTurn (w : World) (q : Nat) (payload : Payload) (k : Pending .pass) :
    (w.abandonTurn q payload k).control.Piled k [] := by
  have habandons := abandons_abandonTurn w q payload k
  generalize w.abandonTurn q payload k = p at habandons ⊢
  cases habandons with
  | missing | leaves => exact .refl
  | destroys => exact over_destroy.piled.lower trivial

theorem piled_timerFired (w : World) (q : Nat) (id : TaskId) (k : Pending .verdict) :
    (w.timerFired q id k).control.Piled k [] := by
  obtain ⟨w₁, verdict, heq, _⟩ := w.timerFired_eq q id k
  rw [heq]
  exact .refl

theorem shifts_perform (w : World) (action : Action) (k : Pending .reply) :
    (w.perform action k).Shifts w True k [] := by
  cases hrun : action.run? with
  | none => exact .piles (w.within_perform hrun k).stack.piled
  | some q => exact (walks_perform hrun w k).shifts trivial

end World

namespace Activation

/-- An activation that is given a result destroys at most the first of the records that wait. -/
theorem shifts_resume (f : Activation a b) (result : a.Result) (w : World) (k : Pending b) :
    (f.resume result w k).Shifts w f.Light k f.swept.tail := by
  have hplain : f.Plain → (f.resume result w k).Shifts w f.Light k [] := fun hf =>
    .piles (hf.over result k).piled
  cases f with
  | routine | unheeded | callReply | doneReply | machine | counted | host | pacer | triggered =>
    exact hplain trivial
  | idle | rested | passReply | runReply | script | cleanup => exact .piles .refl
  | firing q id => exact .piles (w.piled_timerFired q id k)
  | quiet => exact .piles (World.over_destroyCallback.piled.lower trivial)
  | turn q id walk => exact .piles (w.piled_endTurn q id walk result k)
  | walk q next walk => exact (w.walks_walkOn q next walk k (.inl trivial)).shifts trivial
  | drain q => exact (w.walks_drainOn q k).shifts trivial
  | forever q =>
    cases result with
    | stopped => exact .piles .refl
    | drained =>
      exact (World.Walks.awaited (f := .forever q) trivial (w.walks_startRun q _)).shifts trivial
  | sweep rest =>
    cases rest with
    | nil => exact .piles .refl
    | cons task rest => exact .piles (World.over_destroy.piled.lower (f := .sweep rest) trivial)

/-- A payload does not keep the records from being destroyed, unless it ends everything. -/
theorem shifts_unwind (f : Activation a b) (payload : Payload) (w : World) (k : Pending b) :
    (f.unwind payload w k).Shifts w False k f.swept := by
  cases f with
  | quiet => exact .piles (World.over_destroyCallback.piled.lower trivial)
  | script q id t base =>
    rw [unwind]
    split
    · exact .piles .refl
    · exact .piles .refl
  | turn q id walk => exact .piles (w.piled_abandonTurn q payload k)
  | sweep rest =>
    have hpiled : k.Piled (rest ++ []) (.cons (.sweep rest) (.cons (.cleanup payload .done) k)) :=
      .cons (f := .sweep rest) trivial (.cons (f := .cleanup payload .done) trivial .refl)
    rw [List.append_nil] at hpiled
    exact .piles hpiled
  | cleanup => exact .aborts rfl
  | _ => exact .piles .refl

end Activation

namespace Process

theorem Enters.turns (h : p.Enters w ts q id) : p.control.turns = (q, id) :: ts := by
  cases h with
  | @intro task walk k queued turns =>
    rw [(World.stepping_enter queued walk k).turns, ← turns]
    rfl

theorem Enters.queued (h : p.Enters w ts q id) : ∃ task, w.task? q id = some task := by
  cases h with
  | intro queued => exact ⟨_, queued⟩

theorem Shifts.turns {E : Prop} {k : Pending c} {rs : List Task} (h : p.Shifts w E k rs) :
    p.control.turns <:+ k.turns ∨ E ∧ ∃ q id, p.Enters w k.turns q id := by
  cases h with
  | piles stack => exact .inl (stack.turns ▸ List.suffix_refl _)
  | enters may queued stack => exact .inr ⟨may, _, _, .intro queued stack.turns⟩
  | aborts aborted => exact .inl (aborted ▸ List.nil_suffix)

/-- No turn begins, or a pass steps a task. -/
theorem turns_step (p : Process) :
    p.step.control.turns <:+ p.control.turns ∨ ∃ q id, p.step.Enters p.world p.control.turns q id := by
  obtain ⟨w, control⟩ := p
  cases control with
  | perform action k => exact (w.shifts_perform action k).turns.imp_right And.right
  | deliver result k =>
    cases k with
    | outermost => exact .inl (List.suffix_refl _)
    | cons f k =>
      rw [step_deliver]
      obtain hsuffix | ⟨hlight, henters⟩ := (f.shifts_resume result w k).turns
      · exact .inl (hsuffix.trans (List.suffix_append _ _))
      · rw [← Pending.turns_cons hlight.turn? k] at henters
        exact .inr henters
  | unwind payload k =>
    cases k with
    | outermost => exact .inl (List.suffix_refl _)
    | cons f k =>
      rw [step_unwind]
      obtain hsuffix | ⟨hlight, _⟩ := (f.shifts_unwind payload w k).turns
      · exact .inl (hsuffix.trans (List.suffix_append _ _))
      · exact hlight.elim
  | answered | escaped | aborted => exact .inl (List.suffix_refl _)

theorem Begins.enters (h : p.Begins q id) : p.step.Enters p.world p.control.turns q id := by
  obtain hsuffix | ⟨q', id', henters⟩ := p.turns_step
  · have hle := hsuffix.length_le
    rw [h, List.length_cons] at hle
    omega
  · obtain ⟨rfl, rfl⟩ := Prod.mk.inj (List.cons.inj (henters.turns.symm.trans h)).1
    exact henters

theorem mem_turns_step (hm : (q, id) ∈ p.step.control.turns) :
    (q, id) ∈ p.control.turns ∨ p.Begins q id := by
  obtain hsuffix | ⟨q', id', henters⟩ := p.turns_step
  · exact .inl (hsuffix.subset hm)
  · rw [henters.turns] at hm
    obtain hm | hm := List.mem_cons.1 hm
    · obtain ⟨rfl, rfl⟩ := Prod.mk.inj hm
      exact .inr henters.turns
    · exact .inl hm

/-- A task is stepped only if no turn of its queue is on the stack. -/
theorem Sound.not_mem_turns_of_begins (h : p.Sound) (hbegins : p.Begins q id) (id' : TaskId) :
    (q, id') ∉ p.control.turns := by
  intro hm
  have hnodup := h.step.2.ready.nodup
  rw [show p.step.control.turns = _ from hbegins] at hnodup
  exact (List.nodup_cons.1 hnodup).1 (List.mem_map.2 ⟨(q, id'), hm, rfl⟩)

theorem Begins.ne_aborted (h : p.Begins q id) : p.control ≠ .aborted := by
  intro haborted
  rw [Begins, step_of_isOver (by rw [isOver, haborted]), haborted] at h
  cases h

theorem Sound.current_of_begins {Q : Queue} (h : p.Sound) (hbegins : p.Begins q id)
    (hQ : p.world.queue? q = some Q) : Q.current = none :=
  Option.eq_none_iff_forall_ne_some.2 fun id' hc =>
    h.not_mem_turns_of_begins hbegins id' (h.ready.marks hQ hc hbegins.ne_aborted)

theorem Sound.wellFormed_enter {task : Task} (h : p.Sound) (hbegins : p.Begins q id)
    (queued : p.world.task? q id = some task) :
    (p.world.modifyQueue q (·.enter id)).WellFormed := by
  obtain ⟨Q, hQ, hg⟩ := World.task?_eq_some.1 queued
  exact World.wellFormed_enter h.queues hQ (h.current_of_begins hbegins hQ) hg

end Process

end TaskLoop
