import TaskLoop.Proofs.Departures
import TaskLoop.Proofs.Watchers

namespace TaskLoop

variable {a b c : Hole} {w : World} {q : Nat} {id : TaskId} {p : Process} {Q : Queue} {task : Task}
  {name : String} {onDrop : Option (List Action)} {kind : TaskKind}

def Task.callback? : Task → Option (String × Option (List Action))
  | .idle t => some (t.name, t.onDrop)
  | .timer t => some (t.name, t.onDrop)
  | .script _ => none
  | .watcher t => t.callback.map fun callback => (t.name, callback.onDrop)

namespace Task

theorem exists_callback (hscript : task.kind ≠ .script) (hwatcher : task.kind ≠ .watcher) :
    ∃ name onDrop, task.callback? = some (name, onDrop) := by
  cases task with
  | idle t | timer t => exact ⟨t.name, t.onDrop, rfl⟩
  | script => exact absurd rfl hscript
  | watcher => exact absurd rfl hwatcher

theorem pending?_eq (hkind : task.kind = .watcher) :
    task.pending? = some task.callback?.isSome := by
  cases task with
  | watcher t => simp [pending?, callback?]
  | idle | timer | script => cases hkind

end Task

namespace World

theorem destroy_eq (h : task.callback? = some (name, onDrop)) (w : World) (k : Pending .done) :
    w.destroy task k = w.destroyCallback name onDrop k := by
  cases task with
  | idle | timer => cases h; rfl
  | script => cases h
  | watcher t =>
    obtain ⟨callback, hcallback, heq⟩ := Option.map_eq_some_iff.1 h
    cases heq
    simp only [destroy, hcallback]

theorem task?_destroyCallback (w : World) (name : String) (onDrop : Option (List Action))
    (k : Pending .done) (q : Nat) (id : TaskId) :
    (w.destroyCallback name onDrop k).world.task? q id = w.task? q id :=
  (within_destroyCallback (lasting_task? q id (w.task? q id) fun _ => True) rfl name onDrop k).world

def Owns (w : World) (q : Nat) (id : TaskId) : Prop :=
  ∃ task name onDrop, w.task? q id = some task ∧ task.callback? = some (name, onDrop)

theorem owns_of_face (h : w.face q id = some (some true)) : w.Owns q id := by
  obtain ⟨t, ht⟩ := Course.face_watcher h
  rw [face, ht] at h
  obtain ⟨callback, hcallback⟩ := Option.isSome_iff_exists.1 (Option.some.inj (Option.some.inj h))
  exact ⟨_, t.name, callback.onDrop, ht, by simp [Task.callback?, hcallback]⟩

theorem face_of_callback (ht : w.task? q id = some task) (hkind : task.kind = .watcher)
    (howns : task.callback? = some (name, onDrop)) : w.face q id = some (some true) := by
  rw [face, ht, Option.map_some, Task.pending?_eq hkind, howns]
  rfl

end World

namespace Pending

theorem exists_turn {k : Pending a} (hm : (q, id) ∈ k.turns) :
    ∃ walk, ∃ k' : Pending .pass, (Pending.cons (.turn q id walk) k').Upon k := by
  induction k with
  | outermost => cases hm
  | cons f k ih =>
    have hbelow : (q, id) ∈ k.turns → ∃ walk, ∃ k' : Pending .pass,
        (Pending.cons (.turn q id walk) k').Upon (.cons f k) := fun hm => by
      obtain ⟨walk, k', hupon⟩ := ih hm
      exact ⟨walk, k', .cons f hupon⟩
    cases f with
    | turn q' id' walk =>
      obtain hm | hm := List.mem_cons.1 hm
      · cases hm
        exact ⟨walk, k, .refl⟩
      · exact hbelow hm
    | _ => exact hbelow hm

theorem eq_turn (k : Pending .verdict) :
    ∃ q id walk, ∃ k' : Pending .pass, k = .cons (.turn q id walk) k' := by
  cases k with
  | cons f k => cases f with | turn q id walk => exact ⟨q, id, walk, k, rfl⟩

theorem exists_quiet {k : Pending a} (hm : (q, id) ∈ k.ringing) :
    ∃ name onDrop walk, ∃ k' : Pending .pass,
      (Pending.cons (.quiet name onDrop) (.cons (.turn q id walk) k')).Upon k := by
  induction k with
  | outermost => cases hm
  | cons f k ih =>
    have hbelow : (q, id) ∈ k.ringing → ∃ name onDrop walk, ∃ k' : Pending .pass,
        (Pending.cons (.quiet name onDrop) (.cons (.turn q id walk) k')).Upon (.cons f k) :=
      fun hm => by
        obtain ⟨name, onDrop, walk, k', hupon⟩ := ih hm
        exact ⟨name, onDrop, walk, k', .cons f hupon⟩
    cases f with
    | quiet name onDrop =>
      obtain ⟨q', id', walk, k', rfl⟩ := eq_turn k
      obtain hm | hm := List.mem_cons.1 hm
      · cases hm
        exact ⟨name, onDrop, walk, k', .refl⟩
      · exact hbelow hm
    | _ => exact hbelow hm

theorem Upon.ringing {k : Pending c} {k' : Pending a} (h : k.Upon k') : k.ringing ⊆ k'.ringing := by
  induction h with
  | refl => exact List.Subset.refl _
  | cons f _ ih => exact List.Subset.trans ih (ringing_sublist f _).subset

theorem ringing_subset (k : Pending a) : k.ringing ⊆ k.turns := by
  rintro ⟨q, id⟩ hm
  obtain ⟨name, onDrop, walk, k', hupon⟩ := exists_quiet hm
  exact hupon.turns.subset (List.mem_cons_self ..)

end Pending

namespace Control

variable {control : Control} {k : Pending c}

theorem exists_turn (hm : (q, id) ∈ control.turns) :
    ∃ walk, ∃ k : Pending .pass, control.Upon (.cons (.turn q id walk) k) := by
  cases control with
  | perform | deliver | unwind => exact Pending.exists_turn hm
  | answered | escaped | aborted => cases hm

theorem exists_quiet (hm : (q, id) ∈ control.ringing) :
    ∃ name onDrop walk, ∃ k : Pending .pass,
      control.Upon (.cons (.quiet name onDrop) (.cons (.turn q id walk) k)) := by
  cases control with
  | perform | deliver | unwind => exact Pending.exists_quiet hm
  | answered | escaped | aborted => cases hm

theorem Upon.ringing (h : control.Upon k) : k.ringing ⊆ control.ringing := by
  cases control with
  | perform | deliver | unwind => exact Pending.Upon.ringing h
  | answered | escaped | aborted => exact h.elim

theorem ringing_subset (control : Control) : control.ringing ⊆ control.turns := by
  cases control with
  | perform | deliver | unwind => exact Pending.ringing_subset _
  | answered | escaped | aborted => exact List.Subset.refl _

/-- The tasks of the kind that are in the middle of something: a watcher while its callback runs,
any other task from the beginning of its turn to the end. -/
def engaged (kind : TaskKind) (control : Control) : List (Nat × TaskId) :=
  if kind = .watcher then control.ringing else control.turns

theorem engaged_of_ne (hkind : kind ≠ .watcher) (control : Control) :
    control.engaged kind = control.turns := if_neg hkind

theorem engaged_watcher (control : Control) : control.engaged .watcher = control.ringing := rfl

theorem engaged_subset (kind : TaskKind) (control : Control) :
    control.engaged kind ⊆ control.turns := by
  rw [engaged]
  split
  · exact control.ringing_subset
  · exact List.Subset.refl _

end Control

namespace Process

def Ends (p : Process) (q : Nat) (id : TaskId) : Prop :=
  ∃ walk, ∃ k : Pending .pass,
    (∃ verdict, p = p.world.deliver (.cons (.turn q id walk) k) verdict) ∨
      ∃ payload, p = p.world.unwind payload (.cons (.turn q id walk) k)

theorem Completes.ends (h : p.Completes q id) : p.Ends q id := by
  obtain ⟨walk, k, hp⟩ := h
  exact ⟨walk, k, .inl ⟨_, hp⟩⟩

theorem Ends.mem_turns (h : p.Ends q id) : (q, id) ∈ p.control.turns := by
  obtain ⟨walk, k, ⟨verdict, hp⟩ | ⟨payload, hp⟩⟩ := h
  · rw [hp]
    exact List.mem_cons_self ..
  · rw [hp]
    exact List.mem_cons_self ..

theorem Removes.not_ends {q' : Nat} {id' : TaskId} (h : p.Removes q id) : ¬ p.Ends q' id' := by
  obtain ⟨action, k, hcontrol, _⟩ := h
  rintro ⟨walk, k', ⟨verdict, hp⟩ | ⟨payload, hp⟩⟩
  · cases hcontrol.symm.trans (congrArg control hp)
  · cases hcontrol.symm.trans (congrArg control hp)

theorem Sound.not_mem_turns_of_ends (h : p.Sound) (hends : p.Ends q id) :
    (q, id) ∉ p.step.control.turns := by
  obtain ⟨walk, k, ⟨verdict, hp⟩ | ⟨payload, hp⟩⟩ := hends
  · have hfits : (Activation.turn q id walk).Fits p.world k := by
      have hready := h.ready
      rw [hp] at hready
      exact Pending.Ready.fits hready
    rw [hp, World.deliver, step_deliver, Activation.resume, (World.piled_endTurn ..).turns]
    exact hfits.2 id
  · have hfits : (Activation.turn q id walk).Fits p.world k := by
      have hready := h.ready
      rw [hp] at hready
      exact Pending.Ready.fits hready
    rw [hp, World.unwind, step_unwind, Activation.unwind, (World.piled_abandonTurn ..).turns]
    exact hfits.2 id

theorem mem_turns_of_step (hm : (q, id) ∈ p.control.turns) :
    (q, id) ∈ p.step.control.turns ∨ p.Ends q id ∨ p.step.control = .aborted := by
  obtain ⟨walk, k, hupon⟩ := Control.exists_turn hm
  cases holds hupon (by decide) with
  | above _ stays =>
    exact stays.imp (fun hupon => hupon.turns.subset (List.mem_cons_self ..)) .inr
  | result w verdict => exact .inr (.inl ⟨walk, k, .inl ⟨verdict, rfl⟩⟩)
  | payload w payload => exact .inr (.inl ⟨walk, k, .inr ⟨payload, rfl⟩⟩)

def Rang (p : Process) (q : Nat) (id : TaskId) (name : String) (onDrop : Option (List Action)) :
    Prop :=
  ∃ walk, ∃ k : Pending .pass,
    (∃ result, p = p.world.deliver
      (.cons (.quiet name onDrop) (.cons (.turn q id walk) k)) result) ∨
      ∃ payload, p = p.world.unwind payload
        (.cons (.quiet name onDrop) (.cons (.turn q id walk) k))

theorem Rang.mem_ringing (h : p.Rang q id name onDrop) : (q, id) ∈ p.control.ringing := by
  obtain ⟨walk, k, ⟨result, hp⟩ | ⟨payload, hp⟩⟩ := h
  · rw [hp]
    exact List.mem_cons_self ..
  · rw [hp]
    exact List.mem_cons_self ..

theorem Rang.not_ends (h : p.Rang q id name onDrop) : ¬ p.Ends q id := by
  rintro ⟨walk', k', hends⟩
  obtain ⟨walk, k, ⟨result, hp⟩ | ⟨payload, hp⟩⟩ := h
  · obtain ⟨_, hp'⟩ | ⟨_, hp'⟩ := hends
    · cases congrArg control (hp.symm.trans hp')
    · cases congrArg control (hp.symm.trans hp')
  · obtain ⟨_, hp'⟩ | ⟨_, hp'⟩ := hends
    · cases congrArg control (hp.symm.trans hp')
    · cases congrArg control (hp.symm.trans hp')

/-- The callback of a watcher that has run is destroyed inside the turn of the watcher. -/
theorem Sound.step_of_rang (h : p.Sound) (hrang : p.Rang q id name onDrop) :
    ∃ walk, ∃ f : Activation .done .verdict, ∃ k : Pending .pass, f.isQuiet = false ∧
      (q, id) ∉ k.turns ∧
      p.step = p.world.destroyCallback name onDrop (.cons f (.cons (.turn q id walk) k)) := by
  obtain ⟨walk, k, ⟨result, hp⟩ | ⟨payload, hp⟩⟩ := hrang
  · have hready := h.ready
    rw [hp] at hready
    refine ⟨walk, .rested, k, rfl, (Pending.Ready.stack hready).2.1.2 id, ?_⟩
    rw [hp]
    rfl
  · have hready := h.ready
    rw [hp] at hready
    refine ⟨walk, .cleanup payload .verdict, k, rfl, (Pending.Ready.stack hready).2.1.2 id, ?_⟩
    rw [hp]
    rfl

/-- The next transition destroys the callback of the task: with the record of a task that is removed
while it does not run, of one that is done, or of one that was removed in the turn that ends, or
after the callback of a watcher has run. -/
inductive Destroys (p : Process) (q : Nat) (id : TaskId) (name : String)
    (onDrop : Option (List Action)) : Prop
  | removed {task : Task} (removes : p.Removes q id) (idle : (q, id) ∉ p.control.turns)
      (queued : p.world.task? q id = some task) (owns : task.callback? = some (name, onDrop))
  | completed {task : Task} (completes : p.Completes q id)
      (queued : p.world.task? q id = some task) (owns : task.callback? = some (name, onDrop))
  | held {Q : Queue} {task : Task} (ends : p.Ends q id) (queue : p.world.queue? q = some Q)
      (held : Q.held = some task) (owns : task.callback? = some (name, onDrop))
  | rung (rang : p.Rang q id name onDrop)

theorem Sound.get?_of_held (h : p.Sound) (hm : (q, id) ∈ p.control.turns)
    (hQ : p.world.queue? q = some Q) (hheld : Q.held = some task) : Q.tasks.Spent id := by
  obtain ⟨id', hc, hspent⟩ := (h.queues q Q hQ).held task hheld
  obtain rfl := Option.some.inj (hc.symm.trans ((h.ready.running hm).current hQ))
  exact hspent

/-- The record that a turn has held back is destroyed at its end. -/
theorem Sound.step_of_ends (h : p.Sound) (hends : p.Ends q id) (hQ : p.world.queue? q = some Q)
    (hheld : Q.held = some task) :
    ∃ k : Pending .done, p.step = (p.world.setQueue q Q.leave).destroy task k := by
  have hgone := (h.get?_of_held hends.mem_turns hQ hheld).get?_eq_none
  obtain ⟨walk, k, ⟨verdict, hp⟩ | ⟨payload, hp⟩⟩ := hends
  · rw [hp, World.deliver, step_deliver, Activation.resume,
      World.endTurn_destroys hQ (fun _ => hgone) hheld]
    exact ⟨_, rfl⟩
  · rw [hp, World.unwind, step_unwind, Activation.unwind, World.abandonTurn, hQ]
    simp only [hheld]
    exact ⟨_, rfl⟩

theorem Destroys.step_eq (hd : p.Destroys q id name onDrop) (h : p.Sound) :
    ∃ (w' : World) (k : Pending .done), p.step = w'.destroyCallback name onDrop k := by
  have hdestroy : ∀ {task : Task}, task.callback? = some (name, onDrop) →
      (∃ (w' : World) (k : Pending .done), p.step = w'.destroy task k) →
      ∃ (w' : World) (k : Pending .done), p.step = w'.destroyCallback name onDrop k := by
    rintro task howns ⟨w', k, hstep⟩
    exact ⟨w', k, hstep.trans (World.destroy_eq howns w' k)⟩
  cases hd with
  | removed removes idle queued owns => exact hdestroy owns (h.step_of_removes removes idle queued)
  | completed completes queued owns =>
    obtain ⟨Q, hQ, hg⟩ := World.task?_eq_some.1 queued
    obtain ⟨walk, k, _, hstep⟩ := completes.step_eq
    obtain ⟨left, _, heq⟩ := World.endTurn_completes hQ hg walk k
    exact hdestroy owns ⟨_, _, hstep.trans heq⟩
  | held ends queue held owns => exact hdestroy owns ⟨_, h.step_of_ends ends queue held⟩
  | rung rang =>
    obtain ⟨walk, f, k, _, _, hstep⟩ := h.step_of_rang rang
    exact ⟨_, _, hstep⟩

def Keeps (kind : TaskKind) (p : Process) (q : Nat) (id : TaskId) : Prop :=
  p.world.Owns q id ∨ (q, id) ∈ p.control.engaged kind

/-- What is known of a task of this kind from the moment on when it is pushed. Its record is of the
kind, only the callback of a watcher is run by an activation of its own, and a watcher that has been
removed in its turn has nothing left to destroy. -/
structure Tends (kind : TaskKind) (p : Process) (q : Nat) (id : TaskId) : Prop where
  sound : p.Sound
  unrung : p.Unrung
  bears : ∀ Q, p.world.queue? q = some Q → Q.Bears (fun task => task.kind = kind) id
  rings : (q, id) ∈ p.control.ringing → kind = .watcher
  spent : ∀ Q task, (q, id) ∈ p.control.turns → p.world.queue? q = some Q → Q.held = some task →
    kind = .watcher → task.callback? = none

theorem Tends.kind_eq (h : p.Tends kind q id) (ht : p.world.task? q id = some task) :
    task.kind = kind := by
  obtain ⟨Q, hQ, hg⟩ := World.task?_eq_some.1 ht
  obtain ⟨task', hg', hkind⟩ | ⟨hspent, _⟩ := h.bears Q hQ
  · obtain rfl := Option.some.inj (hg.symm.trans hg')
    exact hkind
  · cases hspent.get?_eq_none.symm.trans hg

theorem Tends.held (h : p.Tends kind q id) (hm : (q, id) ∈ p.control.turns)
    (hgone : p.world.task? q id = none) :
    ∃ Q task, p.world.queue? q = some Q ∧ Q.held = some task ∧ task.kind = kind := by
  obtain ⟨Q, hQ, hc, _⟩ := h.sound.ready.running hm
  obtain ⟨task, hg, _⟩ | ⟨_, hheld⟩ := h.bears Q hQ
  · cases hgone.symm.trans (World.task?_eq_some.2 ⟨Q, hQ, hg⟩)
  · obtain ⟨task, hheld, hkind⟩ := hheld hc
    exact ⟨Q, task, hQ, hheld, hkind⟩

theorem Tends.task?_step (h : p.Tends kind q id) (hgone : p.world.task? q id = none) :
    p.step.world.task? q id = none := by
  refine Option.eq_none_iff_forall_ne_some.2 fun task' ht' => ?_
  obtain ⟨Q', hQ', hg'⟩ := World.task?_eq_some.1 ht'
  obtain ⟨Q, hQ, hmoves⟩ := World.queue?_of_rel (h.sound.step.1.queues q) hQ'
  have hknown : Q.tasks.Known id := by
    obtain ⟨task, hg, _⟩ | ⟨hspent, _⟩ := h.bears Q hQ
    · exact Arena.known_of_get? hg
    · exact .inr hspent
  obtain ⟨task, hg, _⟩ := hmoves.get?_origin (h.sound.queues q Q hQ) hknown hg'
  cases hgone.symm.trans (World.task?_eq_some.2 ⟨Q, hQ, hg⟩)

theorem Tends.owns (h : p.Tends kind q id) (hscript : kind ≠ .script) (hwatcher : kind ≠ .watcher)
    (ht : p.world.task? q id = some task) : p.world.Owns q id := by
  have hkind := h.kind_eq ht
  obtain ⟨name, onDrop, howns⟩ := Task.exists_callback (hkind ▸ hscript) (hkind ▸ hwatcher)
  exact ⟨task, name, onDrop, ht, howns⟩

theorem Tends.owns_iff (h : p.Tends .watcher q id) :
    p.world.Owns q id ↔ p.world.face q id = some (some true) := by
  refine ⟨?_, World.owns_of_face⟩
  rintro ⟨task, name, onDrop, ht, howns⟩
  exact World.face_of_callback ht (h.kind_eq ht) howns

theorem Destroys.keeps (hd : p.Destroys q id name onDrop) (h : p.Tends kind q id) :
    p.Keeps kind q id := by
  cases hd with
  | removed _ _ queued owns | completed _ queued owns => exact .inl ⟨_, name, onDrop, queued, owns⟩
  | held ends queue held owns =>
    right
    by_cases hkind : kind = .watcher
    · cases (h.spent _ _ ends.mem_turns queue held hkind).symm.trans owns
    · rw [Control.engaged_of_ne hkind]
      exact ends.mem_turns
  | rung rang =>
    right
    rw [h.rings rang.mem_ringing]
    exact rang.mem_ringing

theorem Destroys.not_keeps (hd : p.Destroys q id name onDrop) (h : p.Tends kind q id) :
    ¬ p.step.Keeps kind q id := by
  have hleft : (q, id) ∉ p.step.control.turns → p.step.world.task? q id = none →
      ¬ p.step.Keeps kind q id := by
    rintro hturns hgone (⟨task, _, _, ht, _⟩ | hm)
    · cases hgone.symm.trans ht
    · exact hturns (Control.engaged_subset kind _ hm)
  cases hd with
  | removed removes idle =>
    refine hleft (fun hm => ?_) (h.sound.task?_of_leaves (.inl removes))
    obtain hm | hbegins := mem_turns_step hm
    · exact idle hm
    · exact removes.not_begins hbegins
  | completed completes =>
    exact hleft (h.sound.not_mem_turns_of_ends completes.ends)
      (h.sound.task?_of_leaves (.inr completes))
  | held ends queue held =>
    refine hleft (h.sound.not_mem_turns_of_ends ends) (h.task?_step ?_)
    rw [World.task?_eq queue]
    exact (h.sound.get?_of_held ends.mem_turns queue held).get?_eq_none
  | rung rang =>
    obtain rfl := h.rings rang.mem_ringing
    obtain ⟨walk, f, k, hf, hk, hstep⟩ := h.sound.step_of_rang rang
    rintro (⟨task, _, _, ht, howns⟩ | hm)
    · -- its record has given the callback away, or the turn would not have come so far
      rw [hstep, World.task?_destroyCallback] at ht
      have hface := h.owns_iff.1 ⟨task, _, _, ht, howns⟩
      obtain ⟨walk', k', hp⟩ :=
        h.unrung q id (Control.ringing_subset _ rang.mem_ringing) hface
      exact rang.not_ends ⟨walk', k', .inl ⟨_, hp⟩⟩
    · rw [hstep, Control.engaged_watcher, World.over_destroyCallback.ringing, Pending.ringing_cons hf] at hm
      exact hk (Pending.ringing_subset k hm)

/-- A callback that is kept no more is destroyed. -/
theorem Keeps.destroys (hkept : p.Keeps kind q id) (h : p.Tends kind q id)
    (h' : p.step.Tends kind q id) (hscript : kind ≠ .script) (halive : p.step.control ≠ .aborted)
    (hlost : ¬ p.step.Keeps kind q id) : ∃ name onDrop, p.Destroys q id name onDrop := by
  by_cases hwatcher : kind = .watcher
  · subst hwatcher
    obtain howns | hm := hkept
    · have hface := h.owns_iff.1 howns
      obtain ⟨task, name, onDrop, ht, howns⟩ := howns
      obtain he | ⟨hn, _⟩ | ⟨hremoves | hcompletes, _⟩ | ⟨hinvokes, _⟩ := h.sound.face_step q id
      · exact absurd (.inl (World.owns_of_face (he.trans hface))) hlost
      · cases hn.symm.trans hface
      · refine ⟨name, onDrop, .removed hremoves (fun hm => ?_) ht howns⟩
        obtain ⟨walk, k, hp⟩ := h.unrung q id hm hface
        exact hremoves.not_ends ⟨walk, k, .inl ⟨_, hp⟩⟩
      · obtain ⟨walk, k, hp⟩ := h.unrung q id hcompletes.ends.mem_turns hface
        obtain ⟨walk', k', hp'⟩ := hcompletes
        cases congrArg control (hp.symm.trans hp')
      · refine absurd (.inr ?_) hlost
        rw [Control.engaged_watcher, (h.sound.invokes_iff.1 hinvokes).rings]
        exact List.mem_cons_self ..
    · obtain ⟨name, onDrop, walk, k, hupon⟩ := Control.exists_quiet hm
      refine ⟨name, onDrop, .rung ⟨walk, k, ?_⟩⟩
      cases holds hupon (by decide) with
      | above _ stays =>
        obtain hupon | haborted := stays
        · exact absurd (.inr (hupon.ringing (List.mem_cons_self ..))) hlost
        · exact absurd haborted halive
      | result w result => exact .inl ⟨result, rfl⟩
      | payload w payload => exact .inr ⟨payload, rfl⟩
  · -- the record owns the callback as long as it exists, so the task is neither queued nor running
    have hgone : p.step.world.task? q id = none :=
      Option.eq_none_iff_forall_ne_some.2 fun _ ht => hlost (.inl (h'.owns hscript hwatcher ht))
    have hturns : (q, id) ∉ p.step.control.turns := fun hm =>
      hlost (.inr (by rw [Control.engaged_of_ne hwatcher]; exact hm))
    have hends : (q, id) ∈ p.control.turns → p.Ends q id := fun hm =>
      ((mem_turns_of_step hm).resolve_left hturns).resolve_right halive
    cases ht : p.world.task? q id with
    | some task =>
      have hkind := h.kind_eq ht
      obtain ⟨name, onDrop, howns⟩ := Task.exists_callback (hkind ▸ hscript) (hkind ▸ hwatcher)
      refine ⟨name, onDrop, ?_⟩
      obtain hremoves | hcompletes := h.sound.leaves ht hgone
      · exact .removed hremoves (fun hm => hremoves.not_ends (hends hm)) ht howns
      · exact .completed hcompletes ht howns
    | none =>
      have hm : (q, id) ∈ p.control.turns := by
        obtain ⟨task, _, _, ht', _⟩ | hm := hkept
        · cases ht.symm.trans ht'
        · exact Control.engaged_subset kind _ hm
      obtain ⟨Q, task, hQ, hheld, hkind⟩ := h.held hm ht
      obtain ⟨name, onDrop, howns⟩ := Task.exists_callback (hkind ▸ hscript) (hkind ▸ hwatcher)
      exact ⟨name, onDrop, .held (hends hm) hQ hheld howns⟩

theorem Keeps.of_step (hkept : p.step.Keeps kind q id) (h : p.Tends kind q id)
    (h' : p.step.Tends kind q id) (hscript : kind ≠ .script) : p.Keeps kind q id := by
  have hqueued : ∀ {task}, p.step.world.task? q id = some task →
      ∃ task, p.world.task? q id = some task := fun ht' =>
    Option.ne_none_iff_exists'.1 fun hgone => by cases (h.task?_step hgone).symm.trans ht'
  by_cases hwatcher : kind = .watcher
  · subst hwatcher
    obtain howns | hm := hkept
    · refine .inl (h.owns_iff.2 (h.sound.pending_of_step (fun hn => ?_) (h'.owns_iff.1 howns)))
      obtain ⟨task', _, _, ht', _⟩ := howns
      obtain ⟨task, ht⟩ := hqueued ht'
      rw [World.face, ht] at hn
      cases hn
    · cases h.sound.turnover with
      | steady _ rings => exact .inr (rings.subset hm)
      | fires fires =>
        rw [Control.engaged_watcher, fires.rings] at hm
        obtain hm | hm := List.mem_cons.1 hm
        · cases hm
          exact .inl (World.owns_of_face fires.before)
        · exact .inr hm
  · obtain ⟨task', _, _, ht', _⟩ | hm := hkept
    · obtain ⟨task, ht⟩ := hqueued ht'
      exact .inl (h.owns hscript hwatcher ht)
    · rw [Control.engaged_of_ne hwatcher] at hm
      obtain hm | hbegins := mem_turns_step hm
      · exact .inr (by rw [Control.engaged_of_ne hwatcher]; exact hm)
      · obtain ⟨task, ht⟩ := hbegins.enters.queued
        exact .inl (h.owns hscript hwatcher ht)

end Process

end TaskLoop
